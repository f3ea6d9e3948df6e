import Mythryl.Threadkit.Mailop

/-! # Mailslots -/

namespace Threadkit

open RaisingState LazyQueue

variable {V : Type}

def cleanAndRemoveInQ (slot : Nat) : Kit V (Option (Entry Unit)) := do
  let s ← get
  let removed := cleanAndRemove (fun e => s.blocked e.call) (s.mailslot slot).inQ
  modify fun s => s.setMailslot slot ((s.mailslot slot).withInQ removed.2)
  return removed.1

def cleanAndRemoveOutQ (slot : Nat) : Kit V (Option (Entry V)) := do
  let s ← get
  let removed := cleanAndRemove (fun e => s.blocked e.call) (s.mailslot slot).outQ
  modify fun s => s.setMailslot slot ((s.mailslot slot).withOutQ removed.2)
  return removed.1

def setSlotPriority (slot : Nat) (priority : Nat) : Kit V Unit :=
  modify fun s => s.setMailslot slot ((s.mailslot slot).withPriority priority)

def resumeTaker (slot : Nat) (taker : Entry Unit) (msg : V) : Kit V Unit := do
  settle taker.call taker.fate
  exitScope
  returnTo taker.call (.tookFromMailslot slot msg)

/-- `call`, in `takeThread`, gets the message of the giver that is resumed. -/
def resumeGiver (slot : Nat) (giver : Entry V) (takeThread : Thread) (call : Call) :
    Kit V Unit := do
  settle giver.call giver.fate
  switchToThreadXu takeThread call (.tookFromMailslot slot giver.what)
    giver.call (.putInMailslot slot giver.what)

def giveTo (call : Call) (slot : Nat) (msg : V) (taker : Entry Unit) : Kit V Unit := do
  let newThread ← endDo1mailoprunAndReturnThread taker.call
  enqueueOldThreadPlusOldFateThenInstallNewThread newThread call (.putInMailslot slot msg)
  setSlotPriority slot 1
  resumeTaker slot taker msg

def takeFrom (call : Call) (slot : Nat) (giver : Entry V) : Kit V Unit := do
  let takeThread ← getCurrentThread
  setCurrentThread (← endDo1mailoprunAndReturnThread giver.call)
  setSlotPriority slot 1
  resumeGiver slot giver takeThread call

def putInMailslot (call : Call) (slot : Nat) (msg : V) : Kit V Unit := do
  enterScope
  match ← cleanAndRemoveInQ slot with
  | some taker => giveTo call slot msg taker
  | none => do
      modify fun s => s.block call
      modify fun s => s.setMailslot slot
        ((s.mailslot slot).withOutQ ((s.mailslot slot).outQ.putOnBack ⟨call, .direct, msg⟩))
      modify fun s => s.await call (.putInMailslot slot msg)
      dispatchNextThreadUsendNoreturn

def nonblockingPutInMailslot (call : Call) (slot : Nat) (msg : V) : Kit V Unit := do
  enterScope
  match ← cleanAndRemoveInQ slot with
  | some taker => giveTo call slot msg taker
  | none => do
      exitScope
      returnTo call .foundNothing

def takeFromMailslot (call : Call) (slot : Nat) : Kit V Unit := do
  enterScope
  match ← cleanAndRemoveOutQ slot with
  | some giver => takeFrom call slot giver
  | none => do
      modify fun s => s.block call
      modify fun s => s.setMailslot slot
        ((s.mailslot slot).withInQ ((s.mailslot slot).inQ.putOnBack ⟨call, .direct, ()⟩))
      modify fun s => s.await call (.takeFromMailslot slot)
      dispatchNextThreadUsendNoreturn

def nonblockingTakeFromMailslot (call : Call) (slot : Nat) : Kit V Unit := do
  enterScope
  match ← cleanAndRemoveOutQ slot with
  | some giver => takeFrom call slot giver
  | none => do
      exitScope
      returnTo call .foundNothing

end Threadkit
