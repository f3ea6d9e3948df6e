import Mathlib.Data.List.Nodup
import Mathlib.Order.Lattice

/-!
# The sleep queue

`timeout_mailop`: entries in the order of their times.
-/

namespace Mythryl.Threadkit.SleepQueue

inductive Status (T : Type)
  | isBlocked (thread : T)
  | isComplete

abbrev Statuses (R T : Type) := R → Status T

structure Completion (R T : Type) where
  apply : Statuses R T → Statuses R T
  completes : ∀ s r, apply s r = s r ∨ apply s r = .isComplete

/-- An entry; to finish its run completes at least that run. -/
structure Item (M R T F : Type) where
  time : M
  finish : Completion R T
  run : R
  fate : F
  finishes : ∀ s, finish.apply s run = .isComplete

structure State (M R T F : Type) where
  sleepQueue : List (Item M R T F)
  statuses : Statuses R T
  runQueue : List (T × F)

variable {M R T F : Type} [LinearOrder M]

def insert (s : Statuses R T) (new : Item M R T F) : List (Item M R T F) → List (Item M R T F)
  | [] => [new]
  | item :: rest =>
      match s item.run with
      | .isComplete => insert s new rest
      | .isBlocked _ =>
          if item.time < new.time then item :: insert s new rest else new :: item :: rest

def timeWait (q : State M R T F) (new : Item M R T F) : State M R T F :=
  { q with sleepQueue := insert q.statuses new q.sleepQueue }

omit [LinearOrder M] in
def dropCancelledQueueEntries (s : Statuses R T) : List (Item M R T F) → List (Item M R T F)
  | [] => []
  | item :: rest =>
      match s item.run with
      | .isComplete => dropCancelledQueueEntries s rest
      | .isBlocked _ => item :: dropCancelledQueueEntries s rest

def wakeThem (now : M) (q : State M R T F) : List (Item M R T F) → State M R T F
  | [] => { q with sleepQueue := [] }
  | item :: rest =>
      match q.statuses item.run with
      | .isComplete => wakeThem now q rest
      | .isBlocked thread =>
          if item.time ≤ now then
            wakeThem now { q with
              runQueue := q.runQueue ++ [(thread, item.fate)]
              statuses := item.finish.apply q.statuses } rest
          else { q with sleepQueue := dropCancelledQueueEntries q.statuses (item :: rest) }

def wakeSleepingThreads (now : M) (q : State M R T F) : State M R T F :=
  match q.sleepQueue with
  | [] => q
  | queue => wakeThem now q queue

inductive Operation (M R T F : Type)
  | timeWait (new : Item M R T F)
  | complete (runs : Completion R T)
  | wakeSleepingThreads (now : M)

def perform (q : State M R T F) : Operation M R T F → State M R T F
  | .timeWait new => timeWait q new
  | .complete runs => { q with statuses := runs.apply q.statuses }
  | .wakeSleepingThreads now => wakeSleepingThreads now q

def Sorted (l : List (Item M R T F)) : Prop := l.Pairwise fun e e' => e.time ≤ e'.time

/-- Entry by entry, those that are due and live in their turn are woken. -/
inductive Fires (now : M) : Statuses R T → List (Item M R T F) → List (T × Item M R T F) →
    Statuses R T → Prop
  | nil {s} : Fires now s [] [] s
  | skip {s s' e es woken} : s e.run = .isComplete ∨ now < e.time → Fires now s es woken s' →
      Fires now s (e :: es) woken s'
  | fire {s s' e es woken t} : s e.run = .isBlocked t → e.time ≤ now →
      Fires now (e.finish.apply s) es woken s' → Fires now s (e :: es) ((t, e) :: woken) s'

section Queues

variable {s s' : Statuses R T} {l : List (Item M R T F)} {now : M} {e new : Item M R T F}
  {woken : List (T × Item M R T F)}

theorem mem_insert (mem : e ∈ insert s new l) : e = new ∨ e ∈ l := by
  induction l with
  | nil => simpa [insert] using mem
  | cons item rest ih =>
    rw [insert] at mem
    split at mem
    · exact (ih mem).imp_right (List.mem_cons_of_mem _)
    · split at mem
      · rcases List.mem_cons.mp mem with rfl | mem
        · simp
        · exact (ih mem).imp_right (List.mem_cons_of_mem _)
      · exact List.mem_cons.mp mem

theorem Fires.complete (fires : Fires now s l woken s') {r : R} (done : s r = .isComplete) :
    s' r = .isComplete := by
  induction fires with
  | nil => exact done
  | skip _ _ ih => exact ih done
  | @fire s s' e es woken t blocked due fires ih =>
    apply ih
    exact (e.finish.completes s r).elim (fun same => same.trans done) id

theorem Fires.live (fires : Fires now s l woken s') :
    ∀ w ∈ woken, w.2 ∈ l ∧ s w.2.run = .isBlocked w.1 := by
  induction fires with
  | nil => simp
  | skip _ _ ih => exact fun w mem => ⟨List.mem_cons_of_mem _ (ih w mem).1, (ih w mem).2⟩
  | @fire s s' e es woken t blocked due fires ih =>
    intro w mem
    rcases List.mem_cons.mp mem with rfl | mem
    · exact ⟨List.mem_cons_self, blocked⟩
    · obtain ⟨inside, live⟩ := ih w mem
      refine ⟨List.mem_cons_of_mem _ inside, ?_⟩
      rcases e.finish.completes s w.2.run with same | done
      · exact same.symm.trans live
      · cases live.symm.trans done

theorem Fires.once (fires : Fires now s l woken s') : (woken.map fun w => w.2.run).Nodup := by
  induction fires with
  | nil => simp
  | skip _ _ ih => exact ih
  | @fire s s' e es woken t blocked due fires ih =>
    rw [List.map_cons, List.nodup_cons]
    refine ⟨fun mem => ?_, ih⟩
    obtain ⟨w, inside, same⟩ := List.mem_map.mp mem
    have live := (fires.live w inside).2
    rw [same, e.finishes s] at live
    cases live

theorem Fires.sublist (fires : Fires now s l woken s') : (woken.map Prod.snd).Sublist l := by
  induction fires with
  | nil => simp
  | skip _ _ ih => exact ih.cons _
  | fire _ _ _ ih => exact ih.cons_cons _

theorem Fires.none (fires : Fires now s l woken s') :
    ∀ e ∈ l, e.time ≤ now → s' e.run = .isComplete := by
  induction fires with
  | nil => simp
  | @skip s s' e es woken idle fires ih =>
    refine List.forall_mem_cons.mpr ⟨fun due => ?_, ih⟩
    exact fires.complete (idle.resolve_right (not_lt.mpr due))
  | @fire s s' e es woken t blocked due fires ih =>
    exact List.forall_mem_cons.mpr ⟨fun _ => fires.complete (e.finishes s), ih⟩

end Queues

end Mythryl.Threadkit.SleepQueue
