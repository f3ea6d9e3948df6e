import Mythryl.Exceptions
import Mathlib.Algebra.Group.Nat.Defs
import Mathlib.Data.List.Basic
import Mathlib.Logic.Relation
import Mathlib.Tactic.Basic

/-! # The bytecode of the literals of a package -/

namespace Mythryl.MakeNextcodeLiteralsBytecodeVector

abbrev Byte := BitVec 8
abbrev Bytes := List Byte
abbrev Codetemp := Nat

inductive Failure
  | overflow
  | size
  | badFloat (f : Bytes)
  | bug (message : String)
  deriving DecidableEq

abbrev Outcome := Except Failure

inductive LiteralValue
  | liInt (i : BitVec 31)
  | liString (s : Bytes)
  | liVar (v : Codetemp)
  deriving DecidableEq

inductive BlockKind
  | liRecord
  | liVector
  deriving DecidableEq

inductive LiteralExpression
  | liTop (ls : List LiteralValue)
  | liBlock (bk : BlockKind) (ls : List LiteralValue) (v : Codetemp) (rest : LiteralExpression)
  | liF64block (ls : List Bytes) (v : Codetemp) (rest : LiteralExpression)
  | liI32block (ls : List (BitVec 32)) (v : Codetemp) (rest : LiteralExpression)
  deriving DecidableEq

/-- `(0u1 << (0u31 - width_tags)) - 0u1`, with seven bits of tags. -/
def maximumVectorLength : Nat := 2 ^ (31 - 7) - 1

/-- A count of the source, an `Int`. -/
def int (n : Nat) : Outcome Nat := if n < 2 ^ 30 then .ok n else .error .overflow

def create (n : Nat) (contents : Bytes) : Outcome Bytes :=
  if maximumVectorLength < n then .error .size else .ok contents

def fromList (l : Bytes) : Outcome Bytes := do
  let n ← int l.length
  create n l

def cat : List Bytes → Outcome Bytes
  | [s] => .ok s
  | sl => do
      let n ← int sl.flatten.length
      create n sl.flatten

def w32toBytes' (w : BitVec 32) (l : Bytes) : Bytes :=
  (w >>> 24).setWidth 8 :: (w >>> 16).setWidth 8 :: (w >>> 8).setWidth 8 :: w.setWidth 8 :: l

def w32toBytes (w : BitVec 32) : Bytes := w32toBytes' w []

/-- `to_large_unt_x` extends the sign. -/
def w31toBytes (w : BitVec 31) : Bytes := w32toBytes (w.signExtend 32)

def intToBytes (i : Nat) : Bytes := w32toBytes (BitVec.ofNat 32 i)

def intToBytes' (i : Nat) (l : Bytes) : Bytes := w32toBytes' (BitVec.ofNat 32 i) l

def putMagic : Bytes := [0x19, 0x98, 0x10, 0x22]

def putDepth (n : Nat) : Outcome Bytes := fromList (intToBytes n)

def putInt (i : BitVec 31) : Outcome Bytes := fromList (0x01 :: w31toBytes i)

def putRaw32 : List (BitVec 32) → Outcome Bytes
  | [i] => fromList (0x02 :: w32toBytes i)
  | l => fromList (0x03 :: intToBytes' l.length (l.foldr w32toBytes' []))

def putRaw64 : List Bytes → Outcome Bytes
  | [r] => fromList (0x04 :: r)
  | l => do
      let head ← fromList (0x05 :: intToBytes l.length)
      cat (head :: l)

def putString (s : Bytes) : Outcome Bytes := do
  let head ← fromList (0x06 :: intToBytes s.length)
  cat [head, s]

def putLit (k : Nat) : Outcome Bytes := fromList (0x07 :: intToBytes k)

def putVector (n : Nat) : Outcome Bytes := fromList (0x08 :: intToBytes n)

def putRecord (n : Nat) : Outcome Bytes := fromList (0x09 :: intToBytes n)

def putReturn : Bytes := [0xff]

def depth : LiteralExpression → Nat → Nat → Outcome Nat
  | .liTop ls, d, maxDepth => do
      let n ← int (d + ls.length)
      pure (max maxDepth n)
  | .liBlock _ ls _ rest, d, maxDepth => do
      let d' ← int (d + 1)
      let n ← int (d + ls.length)
      depth rest d' (max maxDepth n)
  | .liF64block ls _ rest, d, maxDepth => do
      let d' ← int (d + 1)
      let n ← int (d + ls.length)
      depth rest d' (max maxDepth n)
  | .liI32block ls _ rest, d, maxDepth => do
      let d' ← int (d + 1)
      let n ← int (d + ls.length)
      depth rest d' (max maxDepth n)

/-- `f` of the source: how far below the top of the stack the value of `v` lies. -/
def find (v : Codetemp) : List Codetemp → Nat → Outcome Nat
  | [], _ => .error (.bug "Literals: unbound ncf::Codetemp")
  | v' :: r, d => if v = v' then .ok d else find v r (d + 1)

def putLitVal (dictionary : List Codetemp) (d : Nat) : LiteralValue → Outcome Bytes
  | .liInt i => putInt i
  | .liString s => putString s
  | .liVar v => do
      let k ← find v dictionary d
      putLit k

def putLitVals (dictionary : List Codetemp) :
    List LiteralValue → Nat → List Bytes → Outcome (List Bytes)
  | [], _, code => .ok code
  | lit :: r, d, code => do
      let instruction ← putLitVal dictionary d lit
      putLitVals dictionary r (d + 1) (instruction :: code)

def emitablock (dictionary : List Codetemp) :
    BlockKind → List LiteralValue → List Bytes → Outcome (List Bytes)
  | .liRecord, ls, code => do
      let instruction ← putRecord ls.length
      let code ← putLitVals dictionary ls 0 code
      pure (instruction :: code)
  | .liVector, ls, code => do
      let instruction ← putVector ls.length
      let code ← putLitVals dictionary ls 0 code
      pure (instruction :: code)

section Floats

-- The eight bytes of a float, most significant first.
variable (realconst : Bytes → Outcome Bytes)

def putF64block (ls : List Bytes) (code : List Bytes) : Outcome (List Bytes) := do
  let rs ← ls.mapM realconst
  let instruction ← putRaw64 rs
  pure (instruction :: code)

def putI32block (ls : List (BitVec 32)) (code : List Bytes) : Outcome (List Bytes) := do
  let instruction ← putRaw32 ls
  pure (instruction :: code)

def putLitExpression : List Codetemp → LiteralExpression → List Bytes → Outcome (List Bytes)
  | dictionary, .liTop ls, code => do
      let code ← emitablock dictionary .liRecord ls code
      pure (putReturn :: code)
  | dictionary, .liBlock bk ls v rest, code => do
      let code ← emitablock dictionary bk ls code
      putLitExpression (v :: dictionary) rest code
  | dictionary, .liF64block ls v rest, code => do
      let code ← putF64block realconst ls code
      putLitExpression (v :: dictionary) rest code
  | dictionary, .liI32block ls v rest, code => do
      let code ← putI32block ls code
      putLitExpression (v :: dictionary) rest code

def makeNextcodeLiteralsBytecodeVector : LiteralExpression → Outcome Bytes
  | .liTop [] => fromList []
  | litExpression => do
      let maxDepth ← depth litExpression 0 1
      let header ← putDepth maxDepth
      let code ← putLitExpression realconst [] litExpression []
      cat (putMagic :: header :: code.reverse)

end Floats

end Mythryl.MakeNextcodeLiteralsBytecodeVector

/-! # The literal machine of the C runtime -/

namespace Mythryl.MakePackageLiterals

open MakeNextcodeLiteralsBytecodeVector (Byte Bytes)

inductive Fault
  | outsideBytes
  | stackUnderflow
  | assertFail
  | negativeLength
  | badMagic (magic : BitVec 32)
  | badOpcode (opcode : Byte)
  deriving DecidableEq

inductive Val
  | taggedInt (i : BitVec 31)
  | pointer (address : Nat)
  | zeroLengthString
  | zeroLengthVector
  deriving DecidableEq

/-- A string and a vector are pointed to through their header, which counts as part of them. -/
inductive Chunk
  | fourByteAlignedNonpointerData (words : List (BitVec 32))
  | eightByteAlignedNonpointerData (doubles : List Bytes)
  | string (bytes : Bytes)
  | roVector (slots : List Val)
  | record (slots : List Val)
  deriving DecidableEq

abbrev Heap := List Chunk

def taggedIntFromCInt (i : BitVec 32) : Val := .taggedInt (i.setWidth 31)

def heapVoid : Val := taggedIntFromCInt 0
def heapNil : Val := taggedIntFromCInt 0

def v1Magic : BitVec 32 := 0x19981022

structure State where
  pc : Nat
  stack : List Val
  heap : Heap
  deriving DecidableEq

def byteAt (p : Bytes) (pc : Nat) : Except Fault Byte :=
  match p[pc]? with
  | some b => .ok b
  | none => .error .outsideBytes

def get32 (p : Bytes) (pc : Nat) : Except Fault (BitVec 32) := do
  let b0 ← byteAt p pc
  let b1 ← byteAt p (pc + 1)
  let b2 ← byteAt p (pc + 2)
  let b3 ← byteAt p (pc + 3)
  pure (b0.setWidth 32 <<< 24 ||| b1.setWidth 32 <<< 16 ||| b2.setWidth 32 <<< 8 |||
    b3.setWidth 32 <<< 0)

def getBytes (p : Bytes) (pc n : Nat) : Except Fault Bytes :=
  if n ≤ (p.drop pc).length then .ok ((p.drop pc).take n) else .error .outsideBytes

def getDouble (p : Bytes) (pc : Nat) : Except Fault Bytes := getBytes p pc 8

def getWords (p : Bytes) : Nat → Nat → Except Fault (List (BitVec 32))
  | _, 0 => .ok []
  | pc, n+1 => do
      let val ← get32 p pc
      let vals ← getWords p (pc + 4) n
      pure (val :: vals)

def getDoubles (p : Bytes) : Nat → Nat → Except Fault (List Bytes)
  | _, 0 => .ok []
  | pc, n+1 => do
      let d ← getDouble p pc
      let ds ← getDoubles p (pc + 8) n
      pure (d :: ds)

def lengthOf (len : BitVec 32) : Except Fault Nat :=
  if len.toInt < 0 then .error .negativeLength else .ok len.toNat

def assertPositive (len : BitVec 32) : Except Fault Nat :=
  if len.toInt ≤ 0 then .error .assertFail else .ok len.toNat

def ithLiteral (stack : List Val) (n : Nat) : Except Fault Val :=
  match stack[n]? with
  | some val => .ok val
  | none => .error .stackUnderflow

def popSlots (stack : List Val) : Nat → List Val → Except Fault (List Val × List Val)
  | 0, slots => .ok (slots, stack)
  | n+1, slots =>
      match stack with
      | [] => .error .stackUnderflow
      | val :: stack => popSlots stack n (val :: slots)

def makeChunk (heap : Heap) (chunk : Chunk) : Heap × Val := (heap ++ [chunk], .pointer heap.length)

def makeString (heap : Heap) (bytes : Bytes) : Heap × Val :=
  if bytes.length = 0 then (heap, .zeroLengthString) else makeChunk heap (.string bytes)

def makeVector (heap : Heap) (slots : List Val) : Heap × Val :=
  if slots.length = 0 then (heap, .zeroLengthVector) else makeChunk heap (.roVector slots)

def makeRecord (heap : Heap) (slots : List Val) : Heap × Val :=
  if slots.length = 0 then (heap, heapVoid) else makeChunk heap (.record slots)

inductive Round
  | goOn (s : State)
  | returned (val : Val)
  deriving DecidableEq

def push (s : State) (pc : Nat) (made : Heap × Val) (stack : List Val) : Round :=
  .goOn { s with pc := pc, stack := made.2 :: stack, heap := made.1 }

def round (p : Bytes) (s : State) : Except Fault Round :=
  match p[s.pc]? with
  | none => .error .assertFail
  | some opcode =>
      let pc := s.pc + 1
      match opcode.toNat with
      | 0x01 => do
          let i ← get32 p pc
          pure (push s (pc + 4) (s.heap, taggedIntFromCInt i) s.stack)
      | 0x02 => do
          let i ← get32 p pc
          pure (push s (pc + 4) (makeChunk s.heap (.fourByteAlignedNonpointerData [i])) s.stack)
      | 0x03 => do
          let lenInSlots ← get32 p pc
          let lenInSlots ← assertPositive lenInSlots
          let words ← getWords p (pc + 4) lenInSlots
          pure (push s (pc + 4 + 4 * lenInSlots)
            (makeChunk s.heap (.fourByteAlignedNonpointerData words)) s.stack)
      | 0x04 => do
          let d ← getDouble p pc
          pure (push s (pc + 8) (makeChunk s.heap (.eightByteAlignedNonpointerData [d])) s.stack)
      | 0x05 => do
          let lenInSlots ← get32 p pc
          let lenInSlots ← assertPositive lenInSlots
          let doubles ← getDoubles p (pc + 4) lenInSlots
          pure (push s (pc + 4 + 8 * lenInSlots)
            (makeChunk s.heap (.eightByteAlignedNonpointerData doubles)) s.stack)
      | 0x06 => do
          let lenInBytes ← get32 p pc
          let lenInBytes ← lengthOf lenInBytes
          let bytes ← getBytes p (pc + 4) lenInBytes
          pure (push s (pc + 4 + lenInBytes) (makeString s.heap bytes) s.stack)
      | 0x07 => do
          let n ← get32 p pc
          let val ← ithLiteral s.stack n.toInt.toNat
          pure (push s (pc + 4) (s.heap, val) s.stack)
      | 0x08 => do
          let lenInSlots ← get32 p pc
          let lenInSlots ← lengthOf lenInSlots
          let (slots, stack) ← popSlots s.stack lenInSlots []
          pure (push s (pc + 4) (makeVector s.heap slots) stack)
      | 0x09 => do
          let lenInSlots ← get32 p pc
          let lenInSlots ← lengthOf lenInSlots
          let (slots, stack) ← popSlots s.stack lenInSlots []
          pure (push s (pc + 4) (makeRecord s.heap slots) stack)
      | 0xff =>
          if pc = p.length then
            match s.stack with
            | [] => .error .stackUnderflow
            | val :: _ => .ok (.returned val)
          else .error .assertFail
      | _ => .error (.badOpcode opcode)

def loop (p : Bytes) : Nat → State → Option (Except Fault (Heap × Val))
  | 0, _ => none
  | fuel+1, s =>
      match round p s with
      | .error fault => some (.error fault)
      | .ok (.returned val) => some (.ok (s.heap, val))
      | .ok (.goOn s) => loop p fuel s

def header (p : Bytes) : Except Fault (BitVec 32 × BitVec 32) := do
  let magic ← get32 p 0
  let maxDepth ← get32 p 4
  pure (magic, maxDepth)

def start (heap : Heap) : State := { pc := 8, stack := [], heap := heap }

def makePackageLiteralsViaBytecodeInterpreter (fuel : Nat) (p : Bytes) (heap : Heap) :
    Option (Except Fault (Heap × Val)) :=
  if p.length ≤ 8 then some (.ok (heap, heapNil))
  else
    match header p with
    | .error fault => some (.error fault)
    | .ok (magic, _) =>
        if magic ≠ v1Magic then some (.error (.badMagic magic)) else loop p fuel (start heap)

/-! # The instructions of the literal machine -/

open MakeNextcodeLiteralsBytecodeVector (w32toBytes w32toBytes' intToBytes intToBytes')

def At (p : Bytes) (pc : Nat) (code : Bytes) : Prop := code <+: p.drop pc

section Reading

variable {p code rest : Bytes} {pc n : Nat} {b : Byte} {w : BitVec 32}

@[simp] theorem at_nil : At p pc [] := List.nil_prefix

theorem at_cons : At p pc (b :: code) ↔ p[pc]? = some b ∧ At p (pc + 1) code := by
  unfold At
  by_cases inside : pc < p.length
  · rw [List.drop_eq_getElem_cons inside, List.cons_prefix_cons, List.getElem?_eq_getElem inside]
    simp [eq_comm]
  · have outside : p.length ≤ pc := by omega
    simp [List.drop_eq_nil_of_le outside, outside]

theorem at_append : At p pc (code ++ rest) ↔ At p pc code ∧ At p (pc + code.length) rest := by
  induction code generalizing pc with
  | nil => simp
  | cons b code ih =>
    simp only [List.cons_append, at_cons, ih, List.length_cons, and_assoc]
    rw [show pc + 1 + code.length = pc + (code.length + 1) by omega]

theorem at_all : At p 0 p := by simp [At]

theorem byteAt_eq (stands : p[pc]? = some b) : byteAt p pc = .ok b := by
  simp [byteAt, stands]

theorem getBytes_eq (stands : At p pc code) (length : code.length = n) :
    getBytes p pc n = .ok code := by
  subst length
  rw [getBytes, if_pos stands.length_le, ← List.prefix_iff_eq_take.mp stands]

theorem word_eq (w : BitVec 32) :
    ((w >>> 24).setWidth 8).setWidth 32 <<< 24 ||| ((w >>> 16).setWidth 8).setWidth 32 <<< 16 |||
      ((w >>> 8).setWidth 8).setWidth 32 <<< 8 ||| (w.setWidth 8).setWidth 32 <<< 0 = w := by
  apply BitVec.eq_of_getElem_eq
  intro i lt
  simp only [BitVec.shiftLeft_zero, BitVec.getElem_or, BitVec.getElem_shiftLeft,
    BitVec.getElem_setWidth, BitVec.getLsbD_setWidth, BitVec.getLsbD_ushiftRight]
  by_cases first : i < 8
  · grind
  · by_cases second : i < 16
    · grind
    · by_cases third : i < 24 <;> grind

theorem get32_eq (stands : At p pc (w32toBytes' w rest)) :
    get32 p pc = .ok w ∧ At p (pc + 4) rest := by
  simp only [w32toBytes', at_cons, Nat.add_assoc, Nat.reduceAdd] at stands
  obtain ⟨first, second, third, fourth, stands⟩ := stands
  refine ⟨?_, stands⟩
  simp only [get32, byteAt_eq first, byteAt_eq second, byteAt_eq third, byteAt_eq fourth]
  exact congrArg Except.ok (word_eq w)

theorem getWords_eq {words : List (BitVec 32)} (stands : At p pc (words.foldr w32toBytes' [])) :
    getWords p pc words.length = .ok words := by
  induction words generalizing pc with
  | nil => rfl
  | cons w words ih =>
    obtain ⟨read, stands⟩ := get32_eq stands
    rw [List.length_cons, getWords, read, ih stands]
    rfl

theorem getDoubles_eq {doubles : List Bytes} (eight : ∀ d ∈ doubles, d.length = 8)
    (stands : At p pc doubles.flatten) : getDoubles p pc doubles.length = .ok doubles := by
  induction doubles generalizing pc with
  | nil => rfl
  | cons d doubles ih =>
    rw [List.flatten_cons, at_append] at stands
    obtain ⟨here, stands⟩ := stands
    have length := eight d List.mem_cons_self
    rw [length] at stands
    have read : getDouble p pc = .ok d := getBytes_eq here length
    rw [List.length_cons, getDoubles, read, ih (fun d mem => eight d (.tail _ mem)) stands]
    rfl

@[simp] theorem length_word (w : BitVec 32) (l : Bytes) :
    (w32toBytes' w l).length = l.length + 4 := by
  simp [w32toBytes']

theorem length_words (words : List (BitVec 32)) :
    (words.foldr w32toBytes' []).length = 4 * words.length := by
  induction words with
  | nil => rfl
  | cons w words ih => simp [ih]; omega

theorem length_doubles {doubles : List Bytes} (eight : ∀ d ∈ doubles, d.length = 8) :
    doubles.flatten.length = 8 * doubles.length := by
  induction doubles with
  | nil => rfl
  | cons d doubles ih =>
    rw [List.flatten_cons, List.length_append, List.length_cons, eight d List.mem_cons_self,
      ih fun d mem => eight d (.tail _ mem)]
    omega

end Reading

section Counts

variable {n : Nat}

theorem toNat_count (lt : n < 2 ^ 31) : (BitVec.ofNat 32 n).toNat = n := by
  rw [BitVec.toNat_ofNat]
  omega

theorem toInt_count (lt : n < 2 ^ 31) : (BitVec.ofNat 32 n).toInt = n := by
  rw [BitVec.toInt_eq_toNat_of_lt, toNat_count lt]
  rw [toNat_count lt]
  omega

theorem lengthOf_count (lt : n < 2 ^ 31) : lengthOf (BitVec.ofNat 32 n) = .ok n := by
  rw [lengthOf, toInt_count lt, toNat_count lt, if_neg (by omega)]

theorem assertPositive_count (lt : n < 2 ^ 31) (pos : 0 < n) :
    assertPositive (BitVec.ofNat 32 n) = .ok n := by
  rw [assertPositive, toInt_count lt, toNat_count lt, if_neg (by omega)]

end Counts

theorem ithLiteral_eq {stack : List Val} {n : Nat} {val : Val} (at_n : stack[n]? = some val) :
    ithLiteral stack n = .ok val := by
  simp [ithLiteral, at_n]

theorem popSlots_eq {stack : List Val} {n : Nat} {slots : List Val} (le : n ≤ stack.length) :
    popSlots stack n slots = .ok ((stack.take n).reverse ++ slots, stack.drop n) := by
  induction n generalizing stack slots with
  | zero => simp [popSlots]
  | succ n ih =>
    cases stack with
    | nil => simp at le
    | cons val stack =>
      rw [popSlots, ih (by simpa using le)]
      simp

inductive Instruction
  | makeTaggedVal (i : BitVec 32)
  | makeFourByteVals (words : List (BitVec 32))
  | makeEightByteVals (doubles : List Bytes)
  | makeAsciiString (bytes : Bytes)
  | getIthLiteral (n : Nat)
  | makeVector (n : Nat)
  | makeRecord (n : Nat)

namespace Instruction

def bytes : Instruction → Bytes
  | makeTaggedVal i => 0x01 :: w32toBytes i
  | makeFourByteVals [i] => 0x02 :: w32toBytes i
  | makeFourByteVals words => 0x03 :: intToBytes' words.length (words.foldr w32toBytes' [])
  | makeEightByteVals [d] => 0x04 :: d
  | makeEightByteVals doubles => 0x05 :: intToBytes' doubles.length doubles.flatten
  | makeAsciiString bytes => 0x06 :: intToBytes' bytes.length bytes
  | getIthLiteral n => 0x07 :: intToBytes n
  | makeVector n => 0x08 :: intToBytes n
  | makeRecord n => 0x09 :: intToBytes n

def pops : Instruction → Nat
  | makeVector n => n
  | makeRecord n => n
  | _ => 0

def makes (heap : Heap) (stack : List Val) : Instruction → Option (Heap × Val)
  | makeTaggedVal i => some (heap, taggedIntFromCInt i)
  | makeFourByteVals words => some (makeChunk heap (.fourByteAlignedNonpointerData words))
  | makeEightByteVals doubles => some (makeChunk heap (.eightByteAlignedNonpointerData doubles))
  | makeAsciiString bytes => some (makeString heap bytes)
  | getIthLiteral n => stack[n]?.map fun val => (heap, val)
  | makeVector n =>
      if n ≤ stack.length then some (MakePackageLiterals.makeVector heap (stack.take n).reverse)
      else none
  | makeRecord n =>
      if n ≤ stack.length then some (MakePackageLiterals.makeRecord heap (stack.take n).reverse)
      else none

def perform (i : Instruction) (heap : Heap) (stack : List Val) : Option (Heap × List Val) :=
  (i.makes heap stack).map fun made => (made.1, made.2 :: stack.drop i.pops)

def Writable : Instruction → Prop
  | makeFourByteVals words => words ≠ [] ∧ words.length < 2 ^ 31
  | makeEightByteVals doubles =>
      doubles ≠ [] ∧ doubles.length < 2 ^ 31 ∧ ∀ d ∈ doubles, d.length = 8
  | makeAsciiString bytes => bytes.length < 2 ^ 31
  | _ => True

end Instruction

section Rounds

variable {p : Bytes} {s : State} {heap : Heap} {stack : List Val}

theorem push_at {pc pc' : Nat} {made : Heap × Val} (same : pc = pc') :
    (pure (push s pc made stack) : Except Fault Round) =
      .ok (.goOn ⟨pc', made.2 :: stack, made.1⟩) := by
  subst same
  rfl

theorem round_perform {i : Instruction} (writable : i.Writable) (stands : At p s.pc i.bytes)
    (small : s.stack.length < 2 ^ 31) (performed : i.perform s.heap s.stack = some (heap, stack)) :
    round p s = .ok (.goOn ⟨s.pc + i.bytes.length, stack, heap⟩) := by
  obtain ⟨made, makes, same⟩ := Option.map_eq_some_iff.mp performed
  cases same
  cases i with
  | makeTaggedVal i =>
    cases makes
    obtain ⟨opcode, stands⟩ := at_cons.mp stands
    rw [round, opcode]
    simp only [BitVec.reduceToNat, get32_eq stands, ok_bind]
    rfl
  | makeFourByteVals words =>
    cases makes
    obtain ⟨some, short⟩ := writable
    match words with
    | [] => contradiction
    | [i] =>
      obtain ⟨opcode, stands⟩ := at_cons.mp stands
      rw [round, opcode]
      simp only [BitVec.reduceToNat, get32_eq stands, ok_bind]
      rfl
    | i :: i' :: words =>
      obtain ⟨opcode, stands⟩ := at_cons.mp stands
      obtain ⟨read, stands⟩ := get32_eq stands
      rw [round, opcode]
      simp only [BitVec.reduceToNat, read, ok_bind, getWords_eq stands,
        assertPositive_count short (Nat.zero_lt_succ _)]
      apply push_at
      simp only [Instruction.bytes, intToBytes', List.length_cons, length_word, length_words]
      omega
  | makeEightByteVals doubles =>
    cases makes
    obtain ⟨some, short, eight⟩ := writable
    match doubles with
    | [] => contradiction
    | [d] =>
      obtain ⟨opcode, stands⟩ := at_cons.mp stands
      have length := eight d List.mem_cons_self
      have read : getDouble p (s.pc + 1) = .ok d := getBytes_eq stands length
      rw [round, opcode]
      simp only [BitVec.reduceToNat, read, ok_bind]
      apply push_at
      rw [Instruction.bytes, List.length_cons, length]
    | d :: d' :: doubles =>
      obtain ⟨opcode, stands⟩ := at_cons.mp stands
      obtain ⟨read, stands⟩ := get32_eq stands
      rw [round, opcode]
      simp only [BitVec.reduceToNat, read, ok_bind, getDoubles_eq eight stands,
        assertPositive_count short (Nat.zero_lt_succ _)]
      apply push_at
      simp only [Instruction.bytes, intToBytes', List.length_cons, length_word,
        length_doubles eight]
      omega
  | makeAsciiString bytes =>
    cases makes
    obtain ⟨opcode, stands⟩ := at_cons.mp stands
    obtain ⟨read, stands⟩ := get32_eq stands
    rw [round, opcode]
    simp only [BitVec.reduceToNat, read, ok_bind, lengthOf_count writable, getBytes_eq stands rfl]
    apply push_at
    rw [Instruction.bytes, List.length_cons, intToBytes', length_word]
    omega
  | getIthLiteral n =>
    obtain ⟨val, at_n, same⟩ := Option.map_eq_some_iff.mp makes
    cases same
    have short := (List.getElem?_eq_some_iff.mp at_n).1
    obtain ⟨opcode, stands⟩ := at_cons.mp stands
    rw [round, opcode]
    simp only [BitVec.reduceToNat, get32_eq stands, ok_bind,
      toInt_count (Nat.lt_trans short small), Int.toNat_natCast, ithLiteral_eq at_n]
    rfl
  | makeVector n =>
    obtain ⟨le, same⟩ := Option.ite_none_right_eq_some.mp makes
    cases same
    obtain ⟨opcode, stands⟩ := at_cons.mp stands
    rw [round, opcode]
    simp only [BitVec.reduceToNat, get32_eq stands, ok_bind,
      lengthOf_count (Nat.lt_of_le_of_lt le small), popSlots_eq le, List.append_nil]
    rfl
  | makeRecord n =>
    obtain ⟨le, same⟩ := Option.ite_none_right_eq_some.mp makes
    cases same
    obtain ⟨opcode, stands⟩ := at_cons.mp stands
    rw [round, opcode]
    simp only [BitVec.reduceToNat, get32_eq stands, ok_bind,
      lengthOf_count (Nat.lt_of_le_of_lt le small), popSlots_eq le, List.append_nil]
    rfl

abbrev Reaches (p : Bytes) : State → State → Prop :=
  Relation.ReflTransGen fun s s' => round p s = .ok (.goOn s')

inductive Path (p : Bytes) (bound : Nat) : State → State → Prop
  | here {s : State} (shallow : s.stack.length ≤ bound) : Path p bound s s
  | next {s s' s'' : State} (shallow : s.stack.length ≤ bound)
      (goesOn : round p s = .ok (.goOn s')) (rest : Path p bound s' s'') : Path p bound s s''

inductive Performs (bound : Nat) :
    List Instruction → Heap → List Val → Heap → List Val → Prop
  | nil {heap : Heap} {stack : List Val} (shallow : stack.length ≤ bound) :
      Performs bound [] heap stack heap stack
  | cons {i : Instruction} {rest : List Instruction} {heap heap' heap'' : Heap}
      {stack stack' stack'' : List Val} (shallow : stack.length ≤ bound)
      (performed : i.perform heap stack = some (heap', stack'))
      (performs : Performs bound rest heap' stack' heap'' stack'') :
      Performs bound (i :: rest) heap stack heap'' stack''

section Runs

variable {bound : Nat} {code code' : List Instruction} {heap' heap'' : Heap}
  {stack' stack'' : List Val} {s' s'' : State} {val : Val}

theorem Performs.append (first : Performs bound code heap stack heap' stack')
    (second : Performs bound code' heap' stack' heap'' stack'') :
    Performs bound (code ++ code') heap stack heap'' stack'' := by
  induction first with
  | nil => exact second
  | cons shallow performed performs ih => exact .cons shallow performed (ih second)

theorem Performs.path {pc : Nat} (small : bound < 2 ^ 31) (writable : ∀ i ∈ code, i.Writable)
    (stands : At p pc (code.flatMap Instruction.bytes))
    (performs : Performs bound code heap stack heap' stack') : Path p bound ⟨pc, stack, heap⟩
      ⟨pc + (code.flatMap Instruction.bytes).length, stack', heap'⟩ := by
  induction performs generalizing pc with
  | nil shallow => exact .here shallow
  | @cons i rest heap middle _ stack slots _ shallow performed performs ih =>
    rw [List.flatMap_cons, at_append] at stands
    rw [List.flatMap_cons, List.length_append, ← Nat.add_assoc]
    have goesOn := @round_perform p ⟨pc, stack, heap⟩ middle slots i
      (writable i List.mem_cons_self) stands.1 (Nat.lt_of_le_of_lt shallow small) performed
    exact .next shallow goesOn (ih (fun i mem => writable i (.tail _ mem)) stands.2)

theorem Path.reaches (path : Path p bound s s') : Reaches p s s' := by
  induction path with
  | here => exact .refl
  | next shallow goesOn rest ih => exact .head goesOn ih

theorem Path.guards (path : Path p bound s s') (last : round p s' = .ok (.returned val))
    (reaches : Reaches p s s'') :
    s''.stack.length ≤ bound ∧ ∃ outcome, round p s'' = .ok outcome := by
  induction path with
  | here shallow =>
    rcases reaches.cases_head with same | ⟨middle, goesOn, -⟩
    · subst same
      exact ⟨shallow, _, last⟩
    · rw [last] at goesOn
      cases goesOn
  | next shallow goesOn rest ih =>
    rcases reaches.cases_head with same | ⟨middle, goesOn', reaches⟩
    · subst same
      exact ⟨shallow, _, goesOn⟩
    · rw [goesOn] at goesOn'
      cases goesOn'
      exact ih last reaches

theorem Path.loop (path : Path p bound s s') (last : round p s' = .ok (.returned val)) :
    ∃ fuel, loop p fuel s = some (.ok (s'.heap, val)) := by
  induction path with
  | here => exact ⟨1, by simp [MakePackageLiterals.loop, last]⟩
  | next shallow goesOn rest ih =>
    obtain ⟨fuel, returns⟩ := ih last
    exact ⟨fuel + 1, by simp [MakePackageLiterals.loop, goesOn, returns]⟩

end Runs

end Rounds

end Mythryl.MakePackageLiterals
