import Mythryl.Threadkit.Scopes

/-! # Mailslots keep the invariant -/

namespace Threadkit

open RaisingState LazyQueue

variable {V : Type}

namespace SlotOk

variable {half : List (Call × Done V)} {s : State V} {slot : Nat} {call giver taker : Call} {msg : V}

theorem set (ok : SlotOk half s slot) {mailslot : Mailslot V} (priority : 1 ≤ mailslot.priority)
    (takers : s.waiting mailslot.inQ = s.waiting (s.mailslot slot).inQ)
    (givers : s.waiting mailslot.outQ = s.waiting (s.mailslot slot).outQ) :
    SlotOk half (s.setMailslot slot mailslot) slot := by
  have here : (s.setMailslot slot mailslot).mailslot slot = mailslot := by simp
  refine ⟨?_, ok.meetings, ?_, ?_, ?_⟩ <;> rw [here]
  · exact priority
  · exact takers ▸ ok.takers.same rfl (fun _ _ => .rfl) rfl
  · exact givers ▸ ok.givers.same rfl (fun _ _ => .rfl) rfl
  · show ∀ e ∈ s.waiting mailslot.inQ, ∀ e' ∈ s.waiting mailslot.outQ, e.call = e'.call
    rw [takers, givers]
    exact ok.apart

theorem removeTaker (ok : SlotOk half s slot) {inQ : Queue (Entry Unit)} {taker : Entry Unit}
    {t : State V} (first : s.waiting (s.mailslot slot).inQ = taker :: s.waiting inQ)
    (here : (s.setMailslot slot ((s.mailslot slot).withInQ inQ)).complete taker.call = t) :
    SlotOk half t slot ∧ (∀ e ∈ t.waiting (t.mailslot slot).inQ, taker.call < e.call) ∧
      t.waiting (t.mailslot slot).outQ = [] := by
  subst here
  have fewer : ∀ call, ((s.setMailslot slot ((s.mailslot slot).withInQ inQ)).complete
      taker.call).blocked call = true → call ≠ taker.call ∧ s.blocked call = true :=
    fun call => blocked_of_complete
  have fewer' := fun call alive => (fewer call alive).2
  obtain ⟨takers, ahead⟩ := ok.takers.served first rfl (fun _ _ => .rfl) rfl
  have givers := ok.givers.fewer fewer' (fun _ _ => .rfl) rfl
  have gone : _ = [] := List.eq_nil_iff_forall_not_mem.mpr fun e member =>
    (fewer e.call (mem_waiting.mp member).2).1
      (ok.apart taker (by simp [first]) e (waiting_of_fewer fewer' member)).symm
  rw [State.complete_mailslot, State.setMailslot_mailslot, Function.update_self]
  refine ⟨⟨?_, ok.meetings, ?_, ?_, ?_⟩, ahead, gone⟩
  all_goals rw [State.complete_mailslot, State.setMailslot_mailslot, Function.update_self]
  · exact ok.priority
  · exact takers.same rfl (fun _ _ => .rfl) rfl
  · exact givers
  · rw [Mailslot.withInQ_outQ, gone]
    simp

theorem removeGiver (ok : SlotOk half s slot) {outQ : Queue (Entry V)} {giver : Entry V}
    {t : State V} (first : s.waiting (s.mailslot slot).outQ = giver :: s.waiting outQ)
    (here : (s.setMailslot slot ((s.mailslot slot).withOutQ outQ)).complete giver.call = t) :
    SlotOk half t slot ∧ (∀ e ∈ t.waiting (t.mailslot slot).outQ, giver.call < e.call) ∧
      t.waiting (t.mailslot slot).inQ = [] := by
  subst here
  have fewer : ∀ call, ((s.setMailslot slot ((s.mailslot slot).withOutQ outQ)).complete
      giver.call).blocked call = true → call ≠ giver.call ∧ s.blocked call = true :=
    fun call => blocked_of_complete
  have fewer' := fun call alive => (fewer call alive).2
  obtain ⟨givers, ahead⟩ := ok.givers.served first rfl (fun _ _ => .rfl) rfl
  have takers := ok.takers.fewer fewer' (fun _ _ => .rfl) rfl
  have gone : _ = [] := List.eq_nil_iff_forall_not_mem.mpr fun e member =>
    (fewer e.call (mem_waiting.mp member).2).1
      (ok.apart e (waiting_of_fewer fewer' member) giver (by simp [first]))
  rw [State.complete_mailslot, State.setMailslot_mailslot, Function.update_self]
  refine ⟨⟨?_, ok.meetings, ?_, ?_, ?_⟩, ahead, gone⟩
  all_goals rw [State.complete_mailslot, State.setMailslot_mailslot, Function.update_self]
  · exact ok.priority
  · exact takers
  · exact givers.same rfl (fun _ _ => .rfl) rfl
  · rw [Mailslot.withOutQ_inQ, gone]
    simp

theorem gave (ok : SlotOk half s slot)
    (ahead : ∀ e ∈ s.waiting (s.mailslot slot).outQ, call < e.call) :
    SlotOk (half ++ [(call, .putInMailslot slot msg)]) (s.tell call (.putInMailslot slot msg))
      slot where
  __ := ok
  meetings := by
    obtain ⟨l, met, events⟩ := ok.meetings
    exact ⟨l, met, by rw [eventsOf_tell_here rfl, events, List.append_assoc]⟩
  takers := ok.takers.tell rfl rfl (eventsOf_tell_here rfl) (by simp)
  givers := ok.givers.tell rfl rfl (eventsOf_tell_here rfl) fun _ => ahead

theorem took (ok : SlotOk half s slot)
    (ahead : ∀ e ∈ s.waiting (s.mailslot slot).inQ, call < e.call) :
    SlotOk (half ++ [(call, .tookFromMailslot slot msg)])
      (s.tell call (.tookFromMailslot slot msg)) slot where
  __ := ok
  meetings := by
    obtain ⟨l, met, events⟩ := ok.meetings
    exact ⟨l, met, by rw [eventsOf_tell_here rfl, events, List.append_assoc]⟩
  takers := ok.takers.tell rfl rfl (eventsOf_tell_here rfl) fun _ => ahead
  givers := ok.givers.tell rfl rfl (eventsOf_tell_here rfl) (by simp)

theorem met (ok : SlotOk half s slot) (different : giver ≠ taker)
    (whole : half = [(giver, .putInMailslot slot msg), (taker, .tookFromMailslot slot msg)] ∨
      half = [(taker, .tookFromMailslot slot msg), (giver, .putInMailslot slot msg)]) :
    SlotOk [] s slot where
  __ := ok
  meetings := by
    obtain ⟨l, met, events⟩ := ok.meetings
    rcases whole with rfl | rfl
    · exact ⟨_, met.give different, by rw [events, List.append_nil]⟩
    · exact ⟨_, met.take different, by rw [events, List.append_nil]⟩

end SlotOk

section Runs

variable {cells : Cell → Option V} {s : State V} {call : Call} {slot : Nat}

section SameWaiting

variable {mailslot : Mailslot V} (priority : 1 ≤ mailslot.priority)
  (inQ : mailslot.inQ.contents ⊆ (s.mailslot slot).inQ.contents)
  (outQ : mailslot.outQ.contents ⊆ (s.mailslot slot).outQ.contents)
  (takers : s.waiting mailslot.inQ = s.waiting (s.mailslot slot).inQ)
  (givers : s.waiting mailslot.outQ = s.waiting (s.mailslot slot).outQ)
include priority inQ outQ takers givers

theorem Inv.setMailslot (inv : Inv cells s) : Inv cells (s.setMailslot slot mailslot) :=
  inv.touched (o := .mailslot slot)
    (inv.toSound.setMailslot slot mailslot (fun _ member => .inl (.inQ (inQ member)))
      fun _ member => .inl (.outQ (outQ member)))
    (.setMailslot mailslot) ((inv.slot slot).set priority takers givers)

theorem Begun.setMailslot (begun : Begun cells s call) :
    Begun cells (s.setMailslot slot mailslot) call where
  toInv := begun.toInv.setMailslot priority inQ outQ takers givers
  toStarting := begun.toStarting.same .setMailslot
    (fun waits => waits.setMailslot (P := Waits s) id (fun _ member => .inQ (inQ member))
      fun _ member => .outQ (outQ member)) rfl
  control := begun.control

end SameWaiting

structure Next (s : State V) (slot : Nat) (giver taker : Call) : Prop where
  takers : ∀ e ∈ s.waiting (s.mailslot slot).inQ, taker < e.call
  givers : ∀ e ∈ s.waiting (s.mailslot slot).outQ, giver < e.call

namespace Next

variable {s' : State V} {giver taker : Call}

theorem within (next : Next s slot giver taker) (within : Within none s s') :
    Next s' slot giver taker where
  takers := by
    rw [within.mailslot slot nofun]
    exact fun e waiting => next.takers e (waiting_of_fewer within.fewer waiting)
  givers := by
    rw [within.mailslot slot nofun]
    exact fun e waiting => next.givers e (waiting_of_fewer within.fewer waiting)

theorem tell (next : Next s slot giver taker) (call : Call) (done : Done V) :
    Next (s.tell call done) slot giver taker := ⟨next.takers, next.givers⟩

theorem priority (next : Next s slot giver taker) (priority : Nat) :
    Next (s.setMailslot slot ((s.mailslot slot).withPriority priority)) slot giver taker where
  takers := by simpa [State.waiting, State.blocked] using next.takers
  givers := by simpa [State.waiting, State.blocked] using next.givers

end Next

variable {inQ : Queue (Entry Unit)} {outQ : Queue (Entry V)}

theorem giveTo_ends (inv : Inv cells s) (tellable : Tellable s call) (msg : V) {taker : Entry Unit}
    (subset : inQ.contents ⊆ (s.mailslot slot).inQ.contents)
    (first : s.waiting (s.mailslot slot).inQ = taker :: s.waiting inQ) :
    Ends cells (giveTo call slot msg taker)
      (s.setMailslot slot ((s.mailslot slot).withInQ inQ)) := by
  obtain ⟨member, alive⟩ := mem_waiting.mp (first ▸ List.mem_cons_self)
  obtain ⟨thread, status⟩ := blocked_iff.mp alive
  have different : call ≠ taker.call := fun same => by
    rw [← same, tellable.running] at alive
    cases alive
  have sound : Sound (s.setMailslot slot ((s.mailslot slot).withInQ inQ)) :=
    inv.toSound.setMailslot slot _ (fun _ member => .inl (.inQ (subset member)))
      fun _ member => .inl (.outQ member)
  obtain ⟨ok, ahead, alone⟩ := (inv.slot slot).removeTaker first rfl
  have gone : ∀ e, e ∉ _ := List.eq_nil_iff_forall_not_mem.mp alone
  have next : Next _ slot call taker.call := ⟨ahead, fun e waiting => absurd waiting (gone e)⟩
  have gave := @SlotOk.gave _ _ _ _ _ msg ok next.givers
  refine .handOver sound (SameCalls.setMailslot.tellable tellable) status
    (inv.waits (.inQ member)).2 fun t sound taken aside => .modify ?_
  have gave : SlotOk _ (t.setMailslot slot ((t.mailslot slot).withPriority 1)) slot :=
    (gave.within (o := none) (.of_aside aside) nofun).set (Nat.le_refl 1) rfl rfl
  have next := ((next.tell call (.putInMailslot slot msg)).within (.of_aside aside)).priority 1
  have sound : Sound (t.setMailslot slot ((t.mailslot slot).withPriority 1)) :=
    sound.setMailslot slot _ (fun _ member => .inl (.inQ member)) fun _ member =>
      .inl (.outQ member)
  refine .settle sound (taken.same .setMailslot) fun s' sound tellable cascade => .leave ?_
  have later : Within none _ s' := .of_quiet cascade.quiet
  have within : Within (some (.mailslot slot)) s s' :=
    (Within.setMailslot _).trans (.trans .complete (.trans (.tell (by simp [Done.object]))
      (.trans (.of_aside aside) (.trans (.setMailslot _) later.of_none))))
  exact inv.touched (sound.tell tellable _) (within.trans (.tell (by simp [Done.object])))
    (((gave.within later nofun).took (next.within later).takers).met different (.inl rfl))

theorem takeFrom_ends (inv : Inv cells s) (tellable : Tellable s call) (mutex : s.mutex = 1)
    {giver : Entry V} (subset : outQ.contents ⊆ (s.mailslot slot).outQ.contents)
    (first : s.waiting (s.mailslot slot).outQ = giver :: s.waiting outQ) :
    Ends cells (takeFrom call slot giver)
      (s.setMailslot slot ((s.mailslot slot).withOutQ outQ)) := by
  obtain ⟨member, alive⟩ := mem_waiting.mp (first ▸ List.mem_cons_self)
  obtain ⟨thread, status⟩ := blocked_iff.mp alive
  have different : call ≠ giver.call := fun same => by
    rw [← same, tellable.running] at alive
    cases alive
  have sound : Sound (s.setMailslot slot ((s.mailslot slot).withOutQ outQ)) :=
    inv.toSound.setMailslot slot _ (fun _ member => .inl (.inQ member))
      fun _ member => .inl (.outQ (subset member))
  have taken := sound.taken alive (inv.waits (.outQ member)).2
  obtain ⟨ok, ahead, alone⟩ := (inv.slot slot).removeGiver first rfl
  have gone : ∀ e, e ∉ _ := List.eq_nil_iff_forall_not_mem.mp alone
  have next : Next _ slot giver.call call := ⟨fun e waiting => absurd waiting (gone e), ahead⟩
  refine .get (.endDo1mailoprun status (.setCurrentThread fun t aside same => .modify ?_))
  have ok : SlotOk [] (t.setMailslot slot ((t.mailslot slot).withPriority 1)) slot :=
    (ok.within (o := none) (.of_aside aside) nofun).set (Nat.le_refl 1) rfl rfl
  have next := (next.within (.of_aside aside)).priority 1
  have sound : Sound (t.setMailslot slot ((t.mailslot slot).withPriority 1)) :=
    (sound.complete.aside aside).setMailslot slot _ (fun _ member => .inl (.inQ member))
      fun _ member => .inl (.outQ member)
  have tellable : Tellable (t.setMailslot slot ((t.mailslot slot).withPriority 1)) call :=
    SameCalls.setMailslot.tellable (aside.sameCalls.tellable
      (SameCalls.setMailslot.tellable tellable).complete)
  have mutex : (t.setMailslot slot ((t.mailslot slot).withPriority 1)).mutex = 1 :=
    same.trans mutex
  have within : Within (some (.mailslot slot)) s
      (t.setMailslot slot ((t.mailslot slot).withPriority 1)) :=
    (Within.setMailslot _).trans (.trans .complete (.trans (.of_aside aside) (.setMailslot _)))
  refine .settle sound ((taken.same aside.sameCalls).same .setMailslot)
    fun s' sound' taken' cascade => ?_
  have tellable' := tellable.cascade sound.toTracked cascade different
  have later : Within none _ s' := .of_quiet cascade.quiet
  have within := within.trans later.of_none
  have ok := ok.within later nofun
  have next := next.within later
  refine .switch ?_ ?_ (cascade.quiet.mutex.trans mutex)
  · refine inv.touched ((sound'.tell taken' _).tell (tellable'.tell different _) _)
      (within.trans (.trans (.tell (by simp [Done.object])) (.tell (by simp [Done.object])))) ?_
    exact ((ok.gave next.givers).took (next.tell _ _).takers).met (Ne.symm different) (.inl rfl)
  · refine inv.touched ((sound'.tell tellable' _).tell (taken'.tell (Ne.symm different) _) _)
      (within.trans (.trans (.tell (by simp [Done.object])) (.tell (by simp [Done.object])))) ?_
    exact ((ok.took next.takers).gave (next.tell _ _).givers).met (Ne.symm different) (.inr rfl)

theorem Inv.joinTakers (inv : Inv cells s) (alive : s.blocked call = true)
    (last : s.calls = call + 1) {fate : Fate} (ok : s.FateOf call fate)
    (others : ∀ e ∈ s.waiting (s.mailslot slot).outQ, e.call = call)
    (contents : ∀ e ∈ inQ.contents, e ∈ (s.mailslot slot).inQ.contents ∨ e = ⟨call, fate, ()⟩)
    (grown : s.waiting inQ = s.waiting (s.mailslot slot).inQ ++ [⟨call, fate, ()⟩]) :
    Inv cells ((s.setMailslot slot ((s.mailslot slot).withInQ inQ)).await call
      (.takeFromMailslot slot)) := by
  have made : call < s.calls := last ▸ Nat.lt_succ_self call
  refine inv.touched (o := .mailslot slot) ?_
    ((Within.setMailslot _).trans (.await (by simp [BaseMailop.object]))) ?_
  · refine Sound.await (inv.toSound.setMailslot slot ((s.mailslot slot).withInQ inQ)
      (fun e member => ?_) fun e member => .inl (.outQ member)) made _
    rcases contents e member with old | rfl
    · exact .inl (.inQ old)
    · exact .inr ⟨made, ok⟩
  · have before := inv.slot slot
    have here : ((s.setMailslot slot ((s.mailslot slot).withInQ inQ)).await call
        (.takeFromMailslot slot)).mailslot slot = ((s.mailslot slot).withInQ inQ) := by simp
    refine ⟨?_, before.meetings, ?_, ?_, ?_⟩ <;> rw [here]
    · exact before.priority
    · exact grown ▸ before.takers.join inv.toSound alive last fate () rfl rfl rfl
    · exact before.givers.same rfl
        (fun other msg => by by_cases same : other = call <;> simp [same]) rfl
    · intro e member e' member'
      have member : e ∈ s.waiting inQ := member
      rw [grown] at member
      rcases List.mem_append.mp member with old | new
      · exact before.apart e old e' member'
      · cases List.mem_singleton.mp new
        exact (others e' member').symm

theorem Inv.joinGivers (inv : Inv cells s) (alive : s.blocked call = true)
    (last : s.calls = call + 1) {fate : Fate} (ok : s.FateOf call fate) {msg : V}
    (others : ∀ e ∈ s.waiting (s.mailslot slot).inQ, e.call = call)
    (contents : ∀ e ∈ outQ.contents, e ∈ (s.mailslot slot).outQ.contents ∨ e = ⟨call, fate, msg⟩)
    (grown : s.waiting outQ = s.waiting (s.mailslot slot).outQ ++ [⟨call, fate, msg⟩]) :
    Inv cells ((s.setMailslot slot ((s.mailslot slot).withOutQ outQ)).await call
      (.putInMailslot slot msg)) := by
  have made : call < s.calls := last ▸ Nat.lt_succ_self call
  refine inv.touched (o := .mailslot slot) ?_
    ((Within.setMailslot _).trans (.await (by simp [BaseMailop.object]))) ?_
  · refine Sound.await (inv.toSound.setMailslot slot ((s.mailslot slot).withOutQ outQ)
      (fun e member => .inl (.inQ member)) fun e member => ?_) made _
    rcases contents e member with old | rfl
    · exact .inl (.outQ old)
    · exact .inr ⟨made, ok⟩
  · have before := inv.slot slot
    have here : ((s.setMailslot slot ((s.mailslot slot).withOutQ outQ)).await call
        (.putInMailslot slot msg)).mailslot slot = ((s.mailslot slot).withOutQ outQ) := by simp
    refine ⟨?_, before.meetings, ?_, ?_, ?_⟩ <;> rw [here]
    · exact before.priority
    · exact before.takers.same rfl
        (fun other _ => by by_cases same : other = call <;> simp [same]) rfl
    · exact grown ▸ before.givers.join inv.toSound alive last fate msg rfl rfl rfl
    · intro e member e' member'
      have member' : e' ∈ s.waiting outQ := member'
      rw [grown] at member'
      rcases List.mem_append.mp member' with old | new
      · exact before.apart e member e' old
      · cases List.mem_singleton.mp new
        exact others e member

theorem Begun.noTaker (begun : Begun cells s call) {t : State V}
    (removed : cleanAndRemove (fun e => s.blocked e.call) (s.mailslot slot).inQ = (none, inQ))
    (here : s.setMailslot slot ((s.mailslot slot).withInQ inQ) = t) :
    Begun cells t call ∧ t.waiting (t.mailslot slot).inQ = [] := by
  obtain ⟨idle, idle', subset⟩ := waiting_removed_none removed
  subst here
  refine ⟨begun.setMailslot (begun.slot slot).priority subset (fun _ => id)
    (idle'.trans idle.symm) rfl, ?_⟩
  rw [State.setMailslot_mailslot, Function.update_self]
  exact idle'

theorem Begun.noGiver (begun : Begun cells s call) {t : State V}
    (removed : cleanAndRemove (fun e => s.blocked e.call) (s.mailslot slot).outQ = (none, outQ))
    (here : s.setMailslot slot ((s.mailslot slot).withOutQ outQ) = t) :
    Begun cells t call ∧ t.waiting (t.mailslot slot).outQ = [] := by
  obtain ⟨idle, idle', subset⟩ := waiting_removed_none removed
  subst here
  refine ⟨begun.setMailslot (begun.slot slot).priority (fun _ => id) subset rfl
    (idle'.trans idle.symm), ?_⟩
  rw [State.setMailslot_mailslot, Function.update_self]
  exact idle'

theorem cleanAndRemoveInQ_outcome {removed : Option (Entry Unit)}
    (result : cleanAndRemove (fun e => s.blocked e.call) (s.mailslot slot).inQ = (removed, inQ)) :
    outcome (cleanAndRemoveInQ slot) s =
      (.ok removed, s.setMailslot slot ((s.mailslot slot).withInQ inQ)) := by
  simp only [cleanAndRemoveInQ, outcome_bind, outcome_get, outcome_modify, outcome_pure, result]

theorem cleanAndRemoveOutQ_outcome {removed : Option (Entry V)}
    (result : cleanAndRemove (fun e => s.blocked e.call) (s.mailslot slot).outQ =
      (removed, outQ)) :
    outcome (cleanAndRemoveOutQ slot) s =
      (.ok removed, s.setMailslot slot ((s.mailslot slot).withOutQ outQ)) := by
  simp only [cleanAndRemoveOutQ, outcome_bind, outcome_get, outcome_modify, outcome_pure, result]

variable (begun : Begun cells s call) (plain : s.mailops call = none)
include begun plain

theorem putInMailslot_ends (slot : Nat) (msg : V) : Ends cells (putInMailslot call slot msg) s := by
  refine .enter ?_
  have begun := begun.withMutex 1
  rcases result : cleanAndRemove (fun e => (s.withMutex 1).blocked e.call)
    ((s.withMutex 1).mailslot slot).inQ with ⟨_ | taker, inQ⟩
  · refine .bind (cleanAndRemoveInQ_outcome result) ?_
    obtain ⟨begun, idle⟩ := begun.noTaker result rfl
    obtain ⟨inv, alive, last⟩ := begun.blocks
    refine .modify (.modify (.modify (.dispatch ?_ rfl)))
    exact inv.joinGivers alive last (fateOf_direct plain) (waiting_block idle)
      (fun e => by simp) (waiting_putOnBack alive)
  · refine .bind (cleanAndRemoveInQ_outcome result) ?_
    obtain ⟨first, subset⟩ := waiting_removed result
    exact giveTo_ends begun.toInv (begun.tellable plain) msg subset first

theorem takeFromMailslot_ends (slot : Nat) : Ends cells (takeFromMailslot call slot) s := by
  refine .enter ?_
  have begun := begun.withMutex 1
  rcases result : cleanAndRemove (fun e => (s.withMutex 1).blocked e.call)
    ((s.withMutex 1).mailslot slot).outQ with ⟨_ | giver, outQ⟩
  · refine .bind (cleanAndRemoveOutQ_outcome result) ?_
    obtain ⟨begun, idle⟩ := begun.noGiver result rfl
    obtain ⟨inv, alive, last⟩ := begun.blocks
    refine .modify (.modify (.modify (.dispatch ?_ rfl)))
    exact inv.joinTakers alive last (fateOf_direct plain) (waiting_block idle)
      (fun e => by simp) (waiting_putOnBack alive)
  · refine .bind (cleanAndRemoveOutQ_outcome result) ?_
    obtain ⟨first, subset⟩ := waiting_removed result
    exact takeFrom_ends begun.toInv (begun.tellable plain) rfl subset first

theorem nonblockingPutInMailslot_ends (slot : Nat) (msg : V) :
    Ends cells (nonblockingPutInMailslot call slot msg) s := by
  refine .enters begun plain fun s begun tellable mutex => ?_
  rcases result : cleanAndRemove (fun e => s.blocked e.call) (s.mailslot slot).inQ with
    ⟨_ | taker, inQ⟩
  · refine .bind (cleanAndRemoveInQ_outcome result) (.leave ?_)
    obtain ⟨begun, idle⟩ := begun.noTaker result rfl
    exact begun.toInv.untouched (begun.toSound.tell (SameCalls.setMailslot.tellable tellable) _)
      (.tell (by simp [Done.object]))
  · refine .bind (cleanAndRemoveInQ_outcome result) ?_
    obtain ⟨first, subset⟩ := waiting_removed result
    exact giveTo_ends begun.toInv tellable msg subset first

theorem nonblockingTakeFromMailslot_ends (slot : Nat) :
    Ends cells (nonblockingTakeFromMailslot call slot) s := by
  refine .enters begun plain fun s begun tellable mutex => ?_
  rcases result : cleanAndRemove (fun e => s.blocked e.call) (s.mailslot slot).outQ with
    ⟨_ | giver, outQ⟩
  · refine .bind (cleanAndRemoveOutQ_outcome result) (.leave ?_)
    obtain ⟨begun, idle⟩ := begun.noGiver result rfl
    exact begun.toInv.untouched (begun.toSound.tell (SameCalls.setMailslot.tellable tellable) _)
      (.tell (by simp [Done.object]))
  · refine .bind (cleanAndRemoveOutQ_outcome result) ?_
    obtain ⟨first, subset⟩ := waiting_removed result
    exact takeFrom_ends begun.toInv tellable mutex subset first

end Runs

/-! # Which mailops are ready -/

def FireMailop.Ready (s : State V) : FireMailop V → Prop
  | .takeFromMailqueue q messages => ∃ priority, s.mailqueue q = .nonempty priority messages
  | .putInMailslot slot _ => (s.mailslot slot).inQ.front ≠ []
  | .takeFromMailslot slot => (s.mailslot slot).outQ.front ≠ []
  | .readCell cell reader value => (s.maildrop cell).value = some value ∧
      ∀ oneshot, cell = .oneshot oneshot → reader = .peek
  | .waitOnCondvar condvar => ∃ priority, s.condvar condvar = .isSet priority
  | .timeout => True
  | .always _ => True

def FireMailop.PartnerBlocked (s : State V) : FireMailop V → Prop
  | .putInMailslot slot _ => ∀ e ∈ (s.mailslot slot).inQ.front.head?, s.blocked e.call = true
  | .takeFromMailslot slot => ∀ e ∈ (s.mailslot slot).outQ.front.head?, s.blocked e.call = true
  | _ => True

/-- Nothing is there for the mailop of `call`; at most other mailops of the same call are. -/
def BaseMailop.NotReady (s : State V) (call : Call) : BaseMailop V → Prop
  | .takeFromMailqueue q => ∃ readers, s.mailqueue q = .empty readers
  | .putInMailslot slot _ => ∀ e ∈ s.waiting (s.mailslot slot).inQ, e.call = call
  | .takeFromMailslot slot => ∀ e ∈ s.waiting (s.mailslot slot).outQ, e.call = call
  | .readMaildrop drop _ => (s.maildrop (.maildrop drop)).value = none
  | .takeFromOneshot oneshot => (s.maildrop (.oneshot oneshot)).value = none
  | .waitOnCondvar condvar => ∃ waitingThreads, s.condvar condvar = .isNotSet waitingThreads
  | .timeoutIn _ => True
  | .timeoutAt _ => True
  | .always _ => False

structure Asked (s s' : State V) : Prop where
  same : SameCalls s s'
  mutex : s'.mutex = s.mutex
  control : s'.control = s.control
  currentThread : s'.currentThread = s.currentThread
  awaits : s'.awaits = s.awaits
  waits : ∀ {call fate}, Waits s' call fate → Waits s call fate
  empty : ∀ q readers, s.mailqueue q = .empty readers → s'.mailqueue q = .empty readers
  nonempty : ∀ q priority messages, s.mailqueue q = .nonempty priority messages →
    ∃ priority', s'.mailqueue q = .nonempty priority' messages
  takers : ∀ slot, s'.waiting (s'.mailslot slot).inQ = s.waiting (s.mailslot slot).inQ
  givers : ∀ slot, s'.waiting (s'.mailslot slot).outQ = s.waiting (s.mailslot slot).outQ
  inQ : ∀ slot first rest, (s.mailslot slot).inQ.front = first :: rest →
    s.blocked first.call = true → (s'.mailslot slot).inQ = (s.mailslot slot).inQ
  outQ : ∀ slot first rest, (s.mailslot slot).outQ.front = first :: rest →
    s.blocked first.call = true → (s'.mailslot slot).outQ = (s.mailslot slot).outQ
  value : ∀ cell, (s'.maildrop cell).value = (s.maildrop cell).value
  notSet : ∀ condvar waitingThreads, s.condvar condvar = .isNotSet waitingThreads →
    s'.condvar condvar = .isNotSet waitingThreads

namespace Asked

variable {s s' s'' : State V} {call : Call}

theorem of_aside (aside : Aside s s') (mutex : s'.mutex = s.mutex)
    (control : s'.control = s.control) (currentThread : s'.currentThread = s.currentThread) :
    Asked s s' where
  same := aside.sameCalls
  mutex := mutex
  control := control
  currentThread := currentThread
  awaits := aside.awaits
  waits := aside.waits
  empty := fun q readers empty => by rw [aside.mailqueue, empty]
  nonempty := fun q priority messages nonempty => ⟨priority, by rw [aside.mailqueue, nonempty]⟩
  takers := fun slot => by rw [aside.mailslot, waiting_of_status aside.status]
  givers := fun slot => by rw [aside.mailslot, waiting_of_status aside.status]
  inQ := fun _ _ _ _ _ => by rw [aside.mailslot]
  outQ := fun _ _ _ _ _ => by rw [aside.mailslot]
  value := fun _ => by rw [aside.maildrop]
  notSet := fun _ _ notSet => by rw [aside.condvar, notSet]

theorem refl (s : State V) : Asked s s := of_aside (by constructor <;> rfl) rfl rfl rfl

theorem trans (first : Asked s s') (second : Asked s' s'') : Asked s s'' where
  same := first.same.trans second.same
  mutex := second.mutex.trans first.mutex
  control := second.control.trans first.control
  currentThread := second.currentThread.trans first.currentThread
  awaits := second.awaits.trans first.awaits
  waits := fun waits => first.waits (second.waits waits)
  empty := fun q readers empty => second.empty q readers (first.empty q readers empty)
  nonempty := fun q priority messages nonempty =>
    let ⟨_, nonempty'⟩ := first.nonempty q priority messages nonempty
    second.nonempty q _ messages nonempty'
  takers := fun slot => (second.takers slot).trans (first.takers slot)
  givers := fun slot => (second.givers slot).trans (first.givers slot)
  inQ := by
    intro slot e rest front alive
    have kept := first.inQ slot e rest front alive
    exact (second.inQ slot e rest (kept ▸ front) (first.same.blocked.trans alive)).trans kept
  outQ := by
    intro slot e rest front alive
    have kept := first.outQ slot e rest front alive
    exact (second.outQ slot e rest (kept ▸ front) (first.same.blocked.trans alive)).trans kept
  value := fun cell => (second.value cell).trans (first.value cell)
  notSet := fun condvar ws notSet => second.notSet condvar ws (first.notSet condvar ws notSet)

theorem notReady (asked : Asked s s') {mailop : BaseMailop V} (idle : mailop.NotReady s call) :
    mailop.NotReady s' call := by
  cases mailop with
  | takeFromMailqueue q => exact ⟨_, asked.empty q _ idle.choose_spec⟩
  | putInMailslot slot msg =>
    show ∀ e ∈ _, _
    rw [asked.takers]
    exact idle
  | takeFromMailslot slot =>
    show ∀ e ∈ _, _
    rw [asked.givers]
    exact idle
  | readMaildrop drop reader => exact (asked.value _).trans idle
  | takeFromOneshot oneshot => exact (asked.value _).trans idle
  | waitOnCondvar condvar => exact ⟨_, asked.notSet condvar _ idle.choose_spec⟩
  | timeoutIn sleepDuration => trivial
  | timeoutAt wakeupTime => trivial
  | always result => exact idle

theorem ready (asked : Asked s s') {fire : FireMailop V} (ready : fire.Ready s)
    (blocked : fire.PartnerBlocked s) : fire.Ready s' ∧ fire.PartnerBlocked s' := by
  cases fire with
  | takeFromMailqueue q messages =>
    exact ⟨asked.nonempty q _ messages ready.choose_spec, trivial⟩
  | putInMailslot slot msg =>
    obtain ⟨first, rest, front⟩ := List.exists_cons_of_ne_nil ready
    have alive := blocked first (by simp [front])
    have kept := asked.inQ slot first rest front alive
    refine ⟨by simp [FireMailop.Ready, kept, front], ?_⟩
    simpa [FireMailop.PartnerBlocked, kept, front, asked.same.blocked] using alive
  | takeFromMailslot slot =>
    obtain ⟨first, rest, front⟩ := List.exists_cons_of_ne_nil ready
    have alive := blocked first (by simp [front])
    have kept := asked.outQ slot first rest front alive
    refine ⟨by simp [FireMailop.Ready, kept, front], ?_⟩
    simpa [FireMailop.PartnerBlocked, kept, front, asked.same.blocked] using alive
  | readCell cell reader value => exact ⟨⟨(asked.value cell).trans ready.1, ready.2⟩, trivial⟩
  | waitOnCondvar condvar =>
    exact ⟨asked.same.isSet condvar _ ready.choose_spec, trivial⟩
  | timeout => exact ⟨trivial, trivial⟩
  | always result => exact ⟨trivial, trivial⟩

theorem setMailqueue {q : Nat} {priority priority' : Nat} {messages : Queue V}
    (nonempty : s.mailqueue q = .nonempty priority messages) :
    Asked s (s.setMailqueue q (.nonempty priority' messages)) where
  same := .setMailqueue
  __ := refl s
  waits := fun waits => waits.setMailqueue (P := Waits s) id nofun
  empty := by
    intro q' readers empty
    have different : q' ≠ q := by
      rintro rfl
      simp [nonempty] at empty
    simpa [different] using empty
  nonempty := by
    intro q' _ messages' nonempty'
    by_cases same : q' = q
    · subst same
      rw [nonempty] at nonempty'
      cases nonempty'
      exact ⟨priority', by simp⟩
    · exact ⟨_, by simpa [same] using nonempty'⟩

theorem setMailslot {slot : Nat} {mailslot : Mailslot V}
    (subsetIn : mailslot.inQ.contents ⊆ (s.mailslot slot).inQ.contents)
    (subsetOut : mailslot.outQ.contents ⊆ (s.mailslot slot).outQ.contents)
    (takers : s.waiting mailslot.inQ = s.waiting (s.mailslot slot).inQ)
    (givers : s.waiting mailslot.outQ = s.waiting (s.mailslot slot).outQ)
    (inQ : ∀ first rest, (s.mailslot slot).inQ.front = first :: rest →
      s.blocked first.call = true → mailslot.inQ = (s.mailslot slot).inQ)
    (outQ : ∀ first rest, (s.mailslot slot).outQ.front = first :: rest →
      s.blocked first.call = true → mailslot.outQ = (s.mailslot slot).outQ) :
    Asked s (s.setMailslot slot mailslot) where
  same := .setMailslot
  __ := refl s
  waits := fun waits => waits.setMailslot (P := Waits s) id (fun _ member => .inQ (subsetIn member))
    fun _ member => .outQ (subsetOut member)
  takers := by
    intro slot'
    by_cases same : slot' = slot
    · subst same
      simpa [State.waiting, State.blocked] using takers
    · simp [State.waiting, State.blocked, same]
  givers := by
    intro slot'
    by_cases same : slot' = slot
    · subst same
      simpa [State.waiting, State.blocked] using givers
    · simp [State.waiting, State.blocked, same]
  inQ := by
    intro slot' first rest front alive
    by_cases same : slot' = slot
    · subst same
      simpa using inQ first rest front alive
    · simp [same]
  outQ := by
    intro slot' first rest front alive
    by_cases same : slot' = slot
    · subst same
      simpa using outQ first rest front alive
    · simp [same]

theorem setCellPriority (cell : Cell) (priority : Nat) :
    Asked s (s.setMaildrop cell ((s.maildrop cell).withPriority priority)) where
  same := .setMaildrop
  __ := refl s
  waits := fun waits => waits.setMaildrop (P := Waits s) id fun _ member => .readQ member
  value := by
    intro cell'
    by_cases same : cell' = cell
    · subst same
      simp
    · simp [same]

theorem setCondvar {condvar : Condvar} {priority priority' : Nat}
    (set : s.condvar condvar = .isSet priority) :
    Asked s (s.setCondvarState condvar (.isSet priority')) where
  same := by
    refine ⟨⟨rfl, rfl, rfl, rfl, rfl, rfl, rfl, ?_, ?_⟩, rfl, rfl, rfl, fun _ _ => rfl⟩
    · intro other priority set'
      by_cases same : other = condvar
      · subst same
        exact ⟨priority', by simp⟩
      · exact ⟨priority, by simpa [same] using set'⟩
    · intro other waitingThreads notSet
      have different : other ≠ condvar := by
        rintro rfl
        simp [set] at notSet
      exact ⟨waitingThreads, by simpa [different] using notSet⟩
  __ := refl s
  waits := fun waits => waits.setCondvarState (P := Waits s) id nofun
  notSet := by
    intro other waitingThreads notSet
    have different : other ≠ condvar := by
      rintro rfl
      simp [set] at notSet
    simpa [different] using notSet

end Asked

section Asking

variable {cells : Cell → Option V} {s s' : State V} {call : Call}

theorem Begun.asked (begun : Begun cells s call) (inv : Inv cells s') (asked : Asked s s') :
    Begun cells s' call where
  toInv := inv
  toStarting := begun.toStarting.same asked.same asked.waits (by rw [asked.awaits])
  control := asked.control.trans begun.control

def Answers (s : State V) (call : Call) (mailop : BaseMailop V) : MailopReadiness V → Prop
  | none => mailop.NotReady s call
  | some (priority, fire) =>
      (priority = -1 ∨ 0 ≤ priority) ∧ fire.Ready s ∧ fire.PartnerBlocked s

def Asks (cells : Cell → Option V) (s : State V) (call : Call) (mailop : BaseMailop V)
    (ask : Kit V (MailopReadiness V)) : Prop :=
  ∃ s' answer, outcome ask s = (.ok answer, s') ∧ Begun cells s' call ∧ Asked s s' ∧
    Answers s' call mailop answer

theorem isReaderReadyToFire_asks (begun : Begun cells s call) {cell : Cell} {reader : Reader V}
    (peeks : ∀ oneshot, cell = .oneshot oneshot → reader = .peek) {mailop : BaseMailop V}
    (idle : (s.maildrop cell).value = none → mailop.NotReady s call) :
    Asks cells s call mailop (isReaderReadyToFire cell reader) := by
  cases value : (s.maildrop cell).value with
  | none =>
    refine ⟨s, none, ?_, begun, .refl s, idle value⟩
    simp [isReaderReadyToFire, outcome_bind, value]
  | some v =>
    refine ⟨s.setMaildrop cell ((s.maildrop cell).withPriority ((s.maildrop cell).priority + 1)),
      some ((s.maildrop cell).priority, .readCell cell reader v), ?_, ?_,
      .setCellPriority cell _, .inr (Int.natCast_nonneg _), ⟨by simpa using value, peeks⟩, trivial⟩
    · simp only [isReaderReadyToFire, outcome_bind, outcome_get, value]
      rfl
    · exact begun.asked (begun.toInv.setCellPriority cell _) (.setCellPriority cell _)

theorem Begun.bumped (begun : Begun cells s call) (slot priority : Nat) :
    let s' := s.setMailslot slot ((s.mailslot slot).withPriority (priority + 1))
    Begun cells s' call ∧ Asked s s' :=
  ⟨begun.setMailslot (by simp) (fun _ => id) (fun _ => id) rfl rfl,
    .setMailslot (fun _ => id) (fun _ => id) rfl rfl (fun _ _ _ _ => rfl) fun _ _ _ _ => rfl⟩

theorem putInMailslot_asks (begun : Begun cells s call) (slot : Nat) (msg : V) :
    Asks cells s call (.putInMailslot slot msg) (isMailopReadyToFire (.putInMailslot slot msg)) := by
  have known := (begun.slot slot).priority
  obtain ⟨priority, positive⟩ := Nat.exists_eq_add_of_le' known
  rcases checked : cleanAndCheck (fun e => s.blocked e.call) (s.mailslot slot).inQ with ⟨ready, inQ⟩
  obtain ⟨same, subset, kept⟩ := waiting_checked checked
  have asked : Asked s (s.setMailslot slot ((s.mailslot slot).withInQ inQ)) :=
    .setMailslot subset (fun _ => id) same rfl kept fun _ _ _ _ => rfl
  have cleaned : Begun cells (s.setMailslot slot ((s.mailslot slot).withInQ inQ)) call :=
    begun.setMailslot known subset
    (fun _ => id) same rfl
  have here : (s.setMailslot slot ((s.mailslot slot).withInQ inQ)).mailslot slot =
      (s.mailslot slot).withInQ inQ := by simp
  generalize cleaned' : s.setMailslot slot ((s.mailslot slot).withInQ inQ) = t
    at asked cleaned here
  cases ready with
  | false =>
    refine ⟨t, none, ?_, cleaned, asked, ?_⟩
    · simp only [isMailopReadyToFire, cleanAndCheckInQ, outcome_bind, outcome_get, checked]
      simp [← cleaned']
    · have idle := asked.takers slot
      rw [waiting_not_ready checked] at idle
      simp [Answers, BaseMailop.NotReady, idle]
  | true =>
    obtain ⟨first, rest, front, alive⟩ := waiting_ready checked
    obtain ⟨begun', bumped⟩ := cleaned.bumped slot (priority + 1)
    refine ⟨_, some (((priority + 1 : Nat) : Int), .putInMailslot slot msg), ?_, begun',
      asked.trans bumped, .inr (Int.natCast_nonneg _), ?_, ?_⟩
    · have result : outcome (cleanAndCheckInQ slot) s = (.ok (priority + 1),
          t.setMailslot slot ((t.mailslot slot).withPriority (priority + 1 + 1))) := by
        simp only [cleanAndCheckInQ, outcome_bind, outcome_get, outcome_modify, checked, positive,
          setSlotPriority, cleaned']
        rfl
      rw [isMailopReadyToFire, outcome_bind_ok result]
      rfl
    · simp [FireMailop.Ready, here, front]
    · have alive' : t.blocked first.call = true := asked.same.blocked.trans alive
      simpa [FireMailop.PartnerBlocked, here, front, State.blocked] using alive'

theorem takeFromMailslot_asks (begun : Begun cells s call) (slot : Nat) :
    Asks cells s call (.takeFromMailslot slot) (isMailopReadyToFire (.takeFromMailslot slot)) := by
  have known := (begun.slot slot).priority
  obtain ⟨priority, positive⟩ := Nat.exists_eq_add_of_le' known
  rcases checked : cleanAndCheck (fun e => s.blocked e.call) (s.mailslot slot).outQ with ⟨ready, outQ⟩
  obtain ⟨same, subset, kept⟩ := waiting_checked checked
  have asked : Asked s (s.setMailslot slot ((s.mailslot slot).withOutQ outQ)) :=
    .setMailslot (fun _ => id) subset rfl same (fun _ _ _ _ => rfl) kept
  have cleaned : Begun cells (s.setMailslot slot ((s.mailslot slot).withOutQ outQ)) call :=
    begun.setMailslot known
    (fun _ => id) subset rfl same
  have here : (s.setMailslot slot ((s.mailslot slot).withOutQ outQ)).mailslot slot =
      (s.mailslot slot).withOutQ outQ := by simp
  generalize cleaned' : s.setMailslot slot ((s.mailslot slot).withOutQ outQ) = t
    at asked cleaned here
  cases ready with
  | false =>
    refine ⟨t, none, ?_, cleaned, asked, ?_⟩
    · simp only [isMailopReadyToFire, cleanAndCheckOutQ, outcome_bind, outcome_get, checked]
      simp [← cleaned']
    · have idle := asked.givers slot
      rw [waiting_not_ready checked] at idle
      simp [Answers, BaseMailop.NotReady, idle]
  | true =>
    obtain ⟨first, rest, front, alive⟩ := waiting_ready checked
    obtain ⟨begun', bumped⟩ := cleaned.bumped slot (priority + 1)
    refine ⟨_, some (((priority + 1 : Nat) : Int), .takeFromMailslot slot), ?_, begun',
      asked.trans bumped, .inr (Int.natCast_nonneg _), ?_, ?_⟩
    · have result : outcome (cleanAndCheckOutQ slot) s = (.ok (priority + 1),
          t.setMailslot slot ((t.mailslot slot).withPriority (priority + 1 + 1))) := by
        simp only [cleanAndCheckOutQ, outcome_bind, outcome_get, outcome_modify, checked, positive,
          setSlotPriority, cleaned']
        rfl
      rw [isMailopReadyToFire, outcome_bind_ok result]
      rfl
    · simp [FireMailop.Ready, here, front]
    · have alive' : t.blocked first.call = true := asked.same.blocked.trans alive
      simpa [FireMailop.PartnerBlocked, here, front, State.blocked] using alive'

theorem takeFromMailqueue_asks (begun : Begun cells s call) (q : Nat) :
    Asks cells s call (.takeFromMailqueue q) (isMailopReadyToFire (.takeFromMailqueue q)) := by
  cases state : s.mailqueue q with
  | empty readers =>
    refine ⟨s, none, ?_, begun, .refl s, readers, state⟩
    simp [isMailopReadyToFire, outcome_bind, state]
  | nonempty priority messages =>
    have inv : Inv cells (s.setMailqueue q (.nonempty (priority + 1) messages)) := by
      have ok := begun.queue q
      refine begun.toInv.touched (o := .mailqueue q) (begun.toSound.setMailqueue q _ nofun)
        (.setMailqueue _) ?_
      have set : QueueOk (s.mailqueue q).queued
          (s.setMailqueue q (.nonempty (priority + 1) messages)) q := by
        refine ok.set ?_ (by simp [state, MailqueueState.readers])
        rintro _ _ ⟨⟩
        exact ok.nonempty _ _ state
      simpa [ObjectOk, state, MailqueueState.queued] using set
    refine ⟨_, some (priority, .takeFromMailqueue q messages), ?_,
      begun.asked inv (.setMailqueue state), .setMailqueue state, .inr (Int.natCast_nonneg _),
      ⟨priority + 1, by simp⟩, trivial⟩
    simp only [isMailopReadyToFire, outcome_bind, outcome_get, state]
    rfl

theorem waitOnCondvar_asks (begun : Begun cells s call) (condvar : Condvar) :
    Asks cells s call (.waitOnCondvar condvar) (isMailopReadyToFire (.waitOnCondvar condvar)) := by
  cases state : s.condvar condvar with
  | isNotSet waitingThreads =>
    refine ⟨s, none, ?_, begun, .refl s, waitingThreads, state⟩
    simp [isMailopReadyToFire, outcome_bind, state]
  | isSet priority =>
    have inv : Inv cells (s.setCondvarState condvar (.isSet (priority + 1))) := by
      refine begun.toInv.untouched (begun.toSound.setCondvarState condvar _ ?_ ?_ nofun)
        (.of_eq rfl rfl rfl rfl rfl rfl)
      · exact fun _ _ => ⟨priority + 1, rfl⟩
      · intro waitingThreads notSet
        simp [state] at notSet
    refine ⟨_, some (priority, .waitOnCondvar condvar), ?_, begun.asked inv (.setCondvar state),
      .setCondvar state, .inr (Int.natCast_nonneg _), ⟨priority + 1, by simp⟩, trivial⟩
    simp only [isMailopReadyToFire, outcome_bind, outcome_get, state]
    rfl

theorem getApproximateTime_outcome (s : State V) : ∃ s' time,
    outcome getApproximateTime s = (.ok time, s') ∧ Aside s s' ∧ s'.mutex = s.mutex ∧
      s'.control = s.control ∧ s'.currentThread = s.currentThread := by
  cases time : s.cachedApproximateTime with
  | some time' =>
    refine ⟨s, time', ?_, ?_, rfl, rfl, rfl⟩
    · simp [getApproximateTime, outcome_bind, time]
    · constructor <;> rfl
  | none =>
    refine ⟨s.cacheTime, s.now, ?_, .cacheTime, rfl, rfl, rfl⟩
    simp only [getApproximateTime, outcome_bind, outcome_get, time]
    rfl

theorem timeoutAt_asks (begun : Begun cells s call) (wakeupTime : Nat) :
    Asks cells s call (.timeoutAt wakeupTime) (isMailopReadyToFire (.timeoutAt wakeupTime)) := by
  obtain ⟨s', time, result, aside, mutex, control, currentThread⟩ := getApproximateTime_outcome s
  have asked : Asked s s' := .of_aside aside mutex control currentThread
  have begun' := begun.asked (begun.toInv.aside aside) asked
  by_cases due : wakeupTime ≤ time
  · refine ⟨s', some (-1, .timeout), ?_, begun', asked, .inl rfl, trivial, trivial⟩
    rw [isMailopReadyToFire, outcome_bind_ok result, if_pos due]
    rfl
  · refine ⟨s', none, ?_, begun', asked, trivial⟩
    rw [isMailopReadyToFire, outcome_bind_ok result, if_neg due]
    rfl

theorem isMailopReadyToFire_asks (begun : Begun cells s call) (mailop : BaseMailop V) :
    Asks cells s call mailop (isMailopReadyToFire mailop) := by
  cases mailop with
  | takeFromMailqueue q => exact takeFromMailqueue_asks begun q
  | putInMailslot slot msg => exact putInMailslot_asks begun slot msg
  | takeFromMailslot slot => exact takeFromMailslot_asks begun slot
  | readMaildrop drop reader =>
    exact isReaderReadyToFire_asks begun (fun _ same => Cell.noConfusion same) id
  | takeFromOneshot oneshot => exact isReaderReadyToFire_asks begun (fun _ _ => rfl) id
  | waitOnCondvar condvar => exact waitOnCondvar_asks begun condvar
  | timeoutIn sleepDuration =>
    by_cases due : sleepDuration = 0
    · refine ⟨s, some (-1, .timeout), ?_, begun, .refl s, .inl rfl, trivial, trivial⟩
      simp [isMailopReadyToFire, due]
    · refine ⟨s, none, ?_, begun, .refl s, trivial⟩
      simp [isMailopReadyToFire, due]
  | timeoutAt wakeupTime => exact timeoutAt_asks begun wakeupTime
  | always result =>
    exact ⟨s, some (-1, .always result), rfl, begun, .refl s, .inl rfl, trivial, trivial⟩

/-! Asking them all. -/

structure Fireable (s : State V) (places : List (Placed V)) (f : Int × Firing V) : Prop where
  priority : f.1 = -1 ∨ 0 ≤ f.1
  place : ∃ mailop, ((f.2.1.1, mailop), f.2.1.2) ∈ places
  ready : f.2.2.Ready s
  blocked : f.2.2.PartnerBlocked s

variable {places : List (Placed V)}

theorem Fireable.asked {f : Int × Firing V}
    (fireable : Fireable s places f) (asked : Asked s s') : Fireable s' places f where
  __ := fireable
  ready := (asked.ready fireable.ready fireable.blocked).1
  blocked := (asked.ready fireable.ready fireable.blocked).2

theorem testMailopsForReadinessToFire'_outcome (mailops : List (Placed V))
    (fireMailopFns : List (Int × Firing V)) (n : Nat) (s : State V) (begun : Begun cells s call)
    (placed : ∀ mailop ∈ mailops, mailop ∈ places) (some : fireMailopFns ≠ [])
    (fireable : ∀ f ∈ fireMailopFns, Fireable s places f) :
    ∃ s' fns n', outcome (testMailopsForReadinessToFire' mailops fireMailopFns n) s =
        (.ok (.readyMailops fns n'), s') ∧ Begun cells s' call ∧ Asked s s' ∧ fns ≠ [] ∧
      ∀ f ∈ fns, Fireable s' places f := by
  induction mailops generalizing s fireMailopFns n with
  | nil => exact ⟨s, fireMailopFns, n, rfl, begun, .refl s, some, fireable⟩
  | cons mailop rest ih =>
    rw [List.forall_mem_cons] at placed
    obtain ⟨s₁, answer, result, begun₁, asked, true_⟩ := isMailopReadyToFire_asks begun mailop.1.2
    rw [testMailopsForReadinessToFire', outcome_bind_ok result]
    have kept := fun f member => (fireable f member).asked asked
    cases answer with
    | none =>
      obtain ⟨s', fns, n', result', begun', asked', rest'⟩ :=
        ih fireMailopFns n s₁ begun₁ placed.2 some kept
      exact ⟨s', fns, n', result', begun', asked.trans asked', rest'⟩
    | some found =>
      obtain ⟨s', fns, n', result', begun', asked', rest'⟩ :=
        ih ((found.1, (mailop.1.1, mailop.2), found.2) :: fireMailopFns) (n + 1) s₁ begun₁
          placed.2 (by simp) (List.forall_mem_cons.mpr
            ⟨⟨true_.1, ⟨mailop.1.2, placed.1⟩, true_.2.1, true_.2.2⟩, kept⟩)
      exact ⟨s', fns, n', result', begun', asked.trans asked', rest'⟩

def Tested (s : State V) (call : Call) (places : List (Placed V)) : TestResult V → Prop
  | .readyMailops fns _ => fns ≠ [] ∧ ∀ f ∈ fns, Fireable s places f
  | .noReadyMailops watches =>
      ∀ placed ∈ watches, placed ∈ places ∧ placed.1.2.NotReady s call

theorem testMailopsForReadinessToFire_outcome (mailops : List (Placed V))
    (watches : List (Placed V)) (s : State V) (begun : Begun cells s call)
    (placed : ∀ mailop ∈ mailops, mailop ∈ places)
    (idle : ∀ placed ∈ watches, placed ∈ places ∧ placed.1.2.NotReady s call) :
    ∃ s' tested, outcome (testMailopsForReadinessToFire mailops watches) s = (.ok tested, s') ∧
      Begun cells s' call ∧ Asked s s' ∧ Tested s' call places tested := by
  induction mailops generalizing s watches with
  | nil => exact ⟨s, .noReadyMailops watches, rfl, begun, .refl s, idle⟩
  | cons mailop rest ih =>
    rw [List.forall_mem_cons] at placed
    obtain ⟨s₁, answer, result, begun₁, asked, true_⟩ := isMailopReadyToFire_asks begun mailop.1.2
    rw [testMailopsForReadinessToFire, outcome_bind_ok result]
    cases answer with
    | none =>
      obtain ⟨s', tested, result', begun', asked', rest'⟩ :=
        ih (mailop :: watches) s₁ begun₁ placed.2 (List.forall_mem_cons.mpr
          ⟨⟨placed.1, true_⟩, fun watch member =>
            ⟨(idle watch member).1, asked.notReady (idle watch member).2⟩⟩)
      exact ⟨s', tested, result', begun', asked.trans asked', rest'⟩
    | some found =>
      obtain ⟨s', fns, n', result', begun', asked', rest'⟩ :=
        testMailopsForReadinessToFire'_outcome rest
          [(found.1, (mailop.1.1, mailop.2), found.2)] 1 s₁ begun₁ placed.2 (by simp)
          (by simpa using ⟨true_.1, ⟨mailop.1.2, placed.1⟩, true_.2.1, true_.2.2⟩)
      exact ⟨s', _, result', begun', asked.trans asked', rest'⟩

end Asking

end Threadkit
