import Mythryl.Threadkit.Mailop

/-! # Maildrops and oneshot maildrops -/

namespace Threadkit

open RaisingState LazyQueue

variable {V : Type}

def setValue (cell : Cell) (value : Option V) : Kit V Unit :=
  modify fun s => s.setMaildrop cell ((s.maildrop cell).withValue value)

def setCellPriority (cell : Cell) (priority : Nat) : Kit V Unit :=
  modify fun s => s.setMaildrop cell ((s.maildrop cell).withPriority priority)

def cleanAndRemoveReadQ (cell : Cell) : Kit V (Option (Entry (Reader V))) := do
  let s ← get
  let removed := cleanAndRemove (fun e => s.blocked e.call) (s.maildrop cell).readQ
  modify fun s => s.setMaildrop cell ((s.maildrop cell).withReadQ removed.2)
  return removed.1

def Reader.done (cell : Cell) (value : V) : Reader V → Done V
  | .take => .tookFromCell cell value
  | .peek => .peekedInCell cell value
  | .swap newValue => .swappedInCell cell value newValue

def resumeReader (relayMsg : V → Call → Done V → Kit V Unit) (cell : Cell)
    (reader : Entry (Reader V)) (value : V) : Kit V Unit := do
  settle reader.call reader.fate
  match reader.what with
  | .take => do
      setValue cell none
      exitScope
      returnTo reader.call (.tookFromCell cell value)
  | .peek => relayMsg value reader.call (.peekedInCell cell value)
  | .swap newValue => do
      setValue cell (some newValue)
      relayMsg newValue reader.call (.swappedInCell cell value newValue)

/-- Passes `msg` on from `call`, which is done, to the next reader. Every reader resumed was
blocked. -/
def relayMsgWithin (cell : Cell) : Nat → V → Call → Done V → Kit V Unit
  | 0, _, _, _ => throw .unfinished
  | length + 1, msg, call, done => do
      match ← cleanAndRemoveReadQ cell with
      | none => do
          exitScope
          returnTo call done
      | some reader => do
          let newThread ← endDo1mailoprunAndReturnThread reader.call
          enqueueOldThreadPlusOldFateThenInstallNewThread newThread call done
          resumeReader (relayMsgWithin cell length) cell reader msg

def relayMsg (cell : Cell) (msg : V) (call : Call) (done : Done V) : Kit V Unit := do
  relayMsgWithin cell ((← get).calls + 1) msg call done

def putInCell (call : Call) (cell : Cell) (value : V) : Kit V Unit := do
  enterScope
  match ((← get).maildrop cell).value with
  | none => do
      setValue cell (some value)
      match ← cleanAndRemoveReadQ cell with
      | none => do
          exitScope
          returnTo call (.putInCell cell value)
      | some reader => do
          let newThread ← endDo1mailoprunAndReturnThread reader.call
          enqueueOldThreadPlusOldFateThenInstallNewThread newThread call (.putInCell cell value)
          setCellPriority cell 1
          resumeReader (relayMsg cell) cell reader value
  | some _ => do
      exitScope
      throw (.mayNotFillAlreadyFull cell)

def readMailop (reader : Reader V) : Cell → BaseMailop V
  | .maildrop drop => .readMaildrop drop reader
  | .oneshot oneshot => .takeFromOneshot oneshot

def readNow (cell : Cell) : Reader V → Kit V Unit
  | .take => setValue cell none
  | .peek => pure ()
  | .swap newValue => setValue cell (some newValue)

def waitInReadQ (cell : Cell) (reader : Entry (Reader V)) : Kit V Unit :=
  modify fun s => s.setMaildrop cell
    ((s.maildrop cell).withReadQ ((s.maildrop cell).readQ.putOnBack reader))

def readCell (call : Call) (cell : Cell) (reader : Reader V) : Kit V Unit := do
  enterScope
  match ((← get).maildrop cell).value with
  | none => do
      modify fun s => s.block call
      waitInReadQ cell ⟨call, .direct, reader⟩
      modify fun s => s.await call (readMailop reader cell)
      dispatchNextThreadUsendNoreturn
  | some v => do
      readNow cell reader
      exitScope
      returnTo call (reader.done cell v)

def putInMaildrop (call : Call) (drop : Nat) (value : V) : Kit V Unit :=
  putInCell call (.maildrop drop) value

def takeFromMaildrop (call : Call) (drop : Nat) : Kit V Unit :=
  readCell call (.maildrop drop) .take

def peekInMaildrop (call : Call) (drop : Nat) : Kit V Unit :=
  readCell call (.maildrop drop) .peek

def maildropSwap (call : Call) (drop : Nat) (newValue : V) : Kit V Unit :=
  readCell call (.maildrop drop) (.swap newValue)

def nonblockingTakeFromMaildrop (call : Call) (drop : Nat) : Kit V Unit := do
  enterScope
  match ((← get).maildrop (.maildrop drop)).value with
  | some v => do
      setValue (.maildrop drop) none
      exitScope
      returnTo call (.tookFromCell (.maildrop drop) v)
  | none => returnTo call .foundNothing

def nonblockingPeekInMaildrop (call : Call) (drop : Nat) : Kit V Unit := do
  enterScope
  match ((← get).maildrop (.maildrop drop)).value with
  | some v => do
      exitScope
      returnTo call (.peekedInCell (.maildrop drop) v)
  | none => do
      exitScope
      returnTo call .foundNothing

def putInOneshot (call : Call) (oneshot : Nat) (value : V) : Kit V Unit :=
  putInCell call (.oneshot oneshot) value

def takeFromOneshot (call : Call) (oneshot : Nat) : Kit V Unit :=
  readCell call (.oneshot oneshot) .peek

def nonblockingTakeFromOneshot (call : Call) (oneshot : Nat) : Kit V Unit := do
  enterScope
  match ((← get).maildrop (.oneshot oneshot)).value with
  | some v => do
      exitScope
      returnTo call (.peekedInCell (.oneshot oneshot) v)
  | none => returnTo call .foundNothing

end Threadkit
