import Mythryl.Threadkit.Mailop

/-! # Mailqueues -/

namespace Threadkit

open RaisingState LazyQueue

variable {V : Type}

def dequeue (messages : Queue V) : Option (V × Queue V) :=
  match messages.front with
  | x :: rest => some (x, ⟨rest, messages.back⟩)
  | [] => match messages.back.reverse with
      | x :: rest => some (x, ⟨rest, []⟩)
      | [] => none

def resumeQueueReader (q : Nat) (reader : Entry Unit) (msg : V) : Kit V Unit := do
  settle reader.call reader.fate
  exitScope
  returnTo reader.call (.tookFromMailqueue q msg)

def putInMailqueue (call : Call) (q : Nat) (x : V) : Kit V Unit := do
  enterScope
  let s ← get
  match s.mailqueue q with
  | .empty readers => match cleanAndRemove (fun e => s.blocked e.call) readers with
      | (none, _) => do
          modify fun s => s.setMailqueue q (.nonempty 1 ⟨[x], []⟩)
          exitScope
          returnTo call (.putInMailqueue q x)
      | (some reader, readers') => do
          modify fun s => s.setMailqueue q (.empty readers')
          let newThread ← endDo1mailoprunAndReturnThread reader.call
          enqueueOldThreadPlusOldFateThenInstallNewThread newThread call (.putInMailqueue q x)
          resumeQueueReader q reader x
  | .nonempty priority messages => do
      modify fun s => s.setMailqueue q (.nonempty priority (messages.putOnBack x))
      yieldToNextThreadXu call (.putInMailqueue q x)

def getMsgXu (call : Call) (q : Nat) (messages : Queue V) : Kit V Unit := do
  match dequeue messages with
  | none => throw .unfinished
  | some (msg, messages') => do
      match messages' with
      | ⟨[], []⟩ => modify fun s => s.setMailqueue q (.empty .empty)
      | messages' => modify fun s => s.setMailqueue q (.nonempty 1 messages')
      exitScope
      returnTo call (.tookFromMailqueue q msg)

def takeFromMailqueue (call : Call) (q : Nat) : Kit V Unit := do
  enterScope
  match (← get).mailqueue q with
  | .empty readers => do
      modify fun s => s.block call
      modify fun s => s.setMailqueue q (.empty (readers.putOnBack ⟨call, .direct, ()⟩))
      modify fun s => s.await call (.takeFromMailqueue q)
      dispatchNextThreadUsendNoreturn
  | .nonempty _ messages => getMsgXu call q messages

def nonblockingTakeFromMailqueue (call : Call) (q : Nat) : Kit V Unit := do
  enterScope
  match (← get).mailqueue q with
  | .empty _ => do
      exitScope
      returnTo call .foundNothing
  | .nonempty _ messages => getMsgXu call q messages

end Threadkit
