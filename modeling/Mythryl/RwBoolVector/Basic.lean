import Mythryl.Exceptions
import Mythryl.RaisingState
import Mathlib.Algebra.Ring.Int.Defs
import Mathlib.Data.List.Basic

/-!
# Mutable vectors of Booleans

`rw_bool_vector`: bit `n` stands in bit `n mod 8` of byte `n div 8`.
-/

namespace Mythryl.RwBoolVector
open RaisingState

inductive Raised
  | subscript | size | overflow
  | fail (message : String)
  deriving DecidableEq, Repr

abbrev Byte := BitVec 8

abbrev Bytes := List Byte

abbrev Write := Raising Raised Bytes

def checkSub (bytes : Bytes) (i : Int) : Except Raised Byte :=
  if i < 0 then .error .subscript
  else
    match bytes[i.toNat]? with
    | some byte => .ok byte
    | none => .error .subscript

def checkSet (bytes : Bytes) (i : Int) (byte : Byte) : Except Raised Bytes :=
  if 0 ≤ i ∧ i < bytes.length then .ok (bytes.set i.toNat byte) else .error .subscript

/-- `core::maximum_vector_length`: seven tag bits of the length word are taken. -/
def maximumVectorLength : Int := 2 ^ 24 - 1

/-- `make_rw_vector` of bytes; as an unsigned number a negative length is too large. -/
def makeBytes (len : Int) (initialValue : Byte) : Except Raised Bytes :=
  if len < 0 ∨ maximumVectorLength < len then .error .size
  else .ok (List.replicate len.toNat initialValue)

def fetch (i : Int) : Write Byte := ExceptT.mk fun bytes => (checkSub bytes i, bytes)

def store (i : Int) (byte : Byte) : Write Unit := ExceptT.mk fun bytes =>
  match checkSet bytes i byte with
  | .ok bytes' => (.ok (), bytes')
  | .error e => (.error e, bytes)

def untilRaised (loop : Write Unit) : Write Unit := tryCatch loop fun _ => pure ()

def lomask : Bytes := [0x00, 0x01, 0x03, 0x07, 0x0f, 0x1f, 0x3f, 0x7f, 0xff]

def himask : Bytes := [0xff, 0xfe, 0xfc, 0xf8, 0xf0, 0xe0, 0xc0, 0x80, 0x00]

def hibits (i : Int) : Except Raised Byte := checkSub himask i

def lobits (i : Int) : Except Raised Byte := checkSub lomask i

def wmask7 (i : Int) : Nat := (i % 8).toNat

def mask7 (i : Int) : Int := wmask7 i

def sizeOf (n : Int) : Int := (n + 7) / 8

def byteOf (i : Int) : Int := i / 8

def bit (i : Int) : Byte := (1 : Byte) <<< wmask7 i

def badArg (f msg : String) : Raised := .fail ("bit_rw_vector::" ++ f ++ ": " ++ msg)

structure BoolVector where
  nbits : Int
  bits : Bytes
  deriving DecidableEq, Repr

def makeRwVector (len : Int) (init : Bool) : Except Raised BoolVector :=
  if len = 0 then .ok ⟨0, []⟩
  else
    match init with
    | false => do
        let bits ← makeBytes (sizeOf len) 0
        return ⟨len, bits⟩
    | true => do
        let size := sizeOf len
        let bits ← makeBytes size 0xff
        let bits' ←
          match len % 8 with
          | 0 => .ok bits
          | idx => do checkSet bits (size - 1) (← lobits idx)
        return ⟨len, bits'⟩

def build (len : Int) (write : Write Unit) : Except Raised BoolVector := do
  let bv ← makeRwVector len false
  let bits ← final write bv.bits
  return ⟨bv.nbits, bits⟩

def buildOn (len : Int) (initialValue : Byte) (write : Write Unit) : Except Raised BoolVector := do
  let newbits ← makeBytes (sizeOf len) initialValue
  let bits ← final write newbits
  return ⟨len, bits⟩

def hexDigit (d : Nat) : Char := "0123456789ABCDEF".toList.getD d '0'

def byteToString (d : Byte) : String :=
  if d.toNat < 16 then String.ofList [hexDigit d.toNat]
  else String.ofList [hexDigit (d.toNat / 16), hexDigit (d.toNat % 16)]

def nibble (d : Byte) : Except Raised Byte :=
  if 0x30 ≤ d ∧ d ≤ 0x39 then .ok (d - 0x30)
  else if 0x41 ≤ d ∧ d ≤ 0x46 then .ok (d - 0x41 + 10)
  else if 0x61 ≤ d ∧ d ≤ 0x66 then .ok (d - 0x61 + 10)
  else .error (badArg "stringToBits" ("illegal character: ord = 0ux" ++ byteToString d))

def initNibbles : Bytes → Int → Write Unit
  | [], _ => pure ()
  | [x], i => do store i (← nibble x)
  | x1 :: x2 :: r, i => do
      let high ← nibble x2
      let low ← nibble x1
      store i ((high <<< 4) ||| low)
      initNibbles r (i + 1)

def fromString (s : Bytes) : Except Raised BoolVector :=
  build (4 * s.length) (initNibbles s.reverse 0)

def initBit (i : Int) : Write Unit := do
  let idx := byteOf i
  let b := bit i
  store idx ((← fetch idx) ||| b)

def initBits : List Int → Write Unit
  | [] => pure ()
  | i :: l => do
      initBit i
      initBits l

def bits (len : Int) (l : List Int) : Except Raised BoolVector := build len (initBits l)

def getbyte : List Bool → Byte → Byte → List Bool × Byte
  | [], _, b => ([], b)
  | x :: r, bit, b =>
      if bit = 0 then (x :: r, b)
      else if x then getbyte r (bit <<< 1) (b ||| bit)
      else getbyte r (bit <<< 1) b

theorem length_getbyte_le (l : List Bool) (bit b : Byte) :
    (getbyte l bit b).1.length ≤ l.length := by
  fun_induction getbyte l bit b with
  | case1 => exact Nat.le_refl _
  | case2 => exact Nat.le_refl _
  | case3 => next ih => exact Nat.le_succ_of_le ih
  | case4 => next ih => exact Nat.le_succ_of_le ih

theorem length_getbyte_lt (x : Bool) (r : List Bool) :
    (getbyte (x :: r) 1 0).1.length < (x :: r).length := by
  have one : (1 : Byte) ≠ 0 := by decide
  unfold getbyte
  rw [if_neg one]
  split
  · exact Nat.lt_succ_of_le (length_getbyte_le ..)
  · exact Nat.lt_succ_of_le (length_getbyte_le ..)

def storeNonzero (idx : Int) (byte : Byte) : Write Unit :=
  if byte ≠ 0 then store idx byte else pure ()

def fill : List Bool → Int → Write Unit
  | [], _ => pure ()
  | x :: r, idx =>
      match _h : getbyte (x :: r) 1 0 with
      | (l', byte) => do
          storeNonzero idx byte
          fill l' (idx + 1)
termination_by l => l.length
decreasing_by
  have shorter := length_getbyte_lt x r
  rw [_h] at shorter
  exact shorter

def fromList (l : List Bool) : Except Raised BoolVector :=
  match l with
  | [] => makeRwVector 0 false
  | l => build l.length (fill l 0)

def maximumInt : Int := 2 ^ 30 - 1

/-- The loop `getbyte` of `from_fn`; the sum `count + 1` overflows where the source's does. -/
def getbyteFn (len : Int) (genf : Int → Except Raised Bool) (count : Int) (bit b : Byte) :
    Except Raised (Int × Byte) :=
  if bit = 0 then .ok (count, b)
  else if count = len then .ok (count, b)
  else do
    let x ← genf count
    if count < maximumInt then
      if x then getbyteFn len genf (count + 1) (bit <<< 1) (b ||| bit)
      else getbyteFn len genf (count + 1) (bit <<< 1) b
    else .error .overflow
termination_by (maximumInt - count).toNat
decreasing_by all_goals omega

variable {byte : Byte} {count count' len : Int} {genf : Int → Except Raised Bool}

theorem getbyteFn_ge {bit b : Byte} (result : getbyteFn len genf count bit b = .ok (count', byte)) :
    count ≤ count' := by
  fun_induction getbyteFn len genf count bit b with
  | case1 =>
    cases result
    exact Int.le_refl _
  | case2 =>
    cases result
    exact Int.le_refl _
  | case3 count bit b _ _ ih_true ih_false =>
    obtain ⟨x, -, result⟩ := bind_eq_ok.mp result
    split at result
    · next lt =>
        split at result
        · exact Int.le_trans (by omega) (ih_true lt result)
        · exact Int.le_trans (by omega) (ih_false lt result)
    · cases result

theorem getbyteFn_gt
    (ne : count ≠ len) (result : getbyteFn len genf count 1 0 = .ok (count', byte)) :
    count < count' := by
  have one : (1 : Byte) ≠ 0 := by decide
  unfold getbyteFn at result
  rw [if_neg one, if_neg ne] at result
  obtain ⟨x, -, result⟩ := bind_eq_ok.mp result
  split at result
  · split at result
    · exact Int.lt_of_add_one_le (getbyteFn_ge result)
    · exact Int.lt_of_add_one_le (getbyteFn_ge result)
  · cases result

theorem getbyteFn_last
    (ne : count ≠ len) (result : getbyteFn len genf count 1 0 = .ok (count', byte)) :
    count < maximumInt := by
  have one : (1 : Byte) ≠ 0 := by decide
  unfold getbyteFn at result
  rw [if_neg one, if_neg ne] at result
  obtain ⟨x, -, result⟩ := bind_eq_ok.mp result
  split at result
  · next lt => exact lt
  · cases result

def fillFn (len : Int) (genf : Int → Except Raised Bool) (count idx : Int) : Write Unit :=
  if _ne : count ≠ len then
    match _h : getbyteFn len genf count 1 0 with
    | .error e => throw e
    | .ok (count', byte) => do
        storeNonzero idx byte
        fillFn len genf count' (idx + 1)
  else pure ()
termination_by (maximumInt + 1 - count).toNat
decreasing_by
  have more := getbyteFn_gt _ne _h
  have last := getbyteFn_last _ne _h
  omega

def fromFn (len : Int) (genf : Int → Except Raised Bool) : Except Raised BoolVector :=
  build len (fillFn len genf 0 0)

def bitOf (v : BoolVector) (i : Int) : Except Raised Bool :=
  if v.nbits ≤ i then .error .subscript
  else do
    let byte ← checkSub v.bits (byteOf i)
    return (byte &&& bit i) ≠ 0

def hexs : Bytes :=
  [0x30, 0x31, 0x32, 0x33, 0x34, 0x35, 0x36, 0x37, 0x38, 0x39, 0x61, 0x62, 0x63, 0x64, 0x65, 0x66]

def put : Bytes → Int → Write Unit
  | [], _ => throw .subscript
  | v :: rest, j => do
      store j (← checkSub hexs (v &&& 0x0f).toNat)
      store (j - 1) (← checkSub hexs (v >>> 4).toNat)
      put rest (j - 2)

def toString (v : BoolVector) : Except Raised Bytes :=
  if v.nbits = 0 then .ok []
  else do
    let len := (v.nbits + 3) / 4
    let buf ← makeBytes len 0
    final (untilRaised (put v.bits (len - 1))) buf

def shiftsLeft (data : Byte) : Nat := ((List.range 8).find? fun k => data <<< k = 0).getD 8

theorem shiftsLeft_lt {data : Byte} (ne : data ≠ 0) : shiftsLeft (data <<< 1) < shiftsLeft data := by
  have last : data <<< 8 = 0 := BitVec.shiftLeft_eq_zero le_rfl
  rw [shiftsLeft, show List.range 8 = List.range 7 ++ [7] from rfl, List.find?_append, shiftsLeft,
    show List.range 8 = 0 :: (List.range 7).map (· + 1) from rfl,
    List.find?_cons_of_neg (p := fun k => decide (data <<< k = 0)) (by simpa using ne), List.find?_map]
  simp only [Function.comp_def, ← BitVec.shiftLeft_add, Nat.add_comm 1]
  cases List.find? _ (List.range 7) with
  | none => simp [last]
  | some k => simp

def extractBits (bit : Int) (data : Byte) (l : List Int) : List Int :=
  if data = 0 then l
  else
    let l' := if data &&& 0x80 = 0 then l else bit :: l
    extractBits (bit - 1) (data <<< 1) l'
termination_by shiftsLeft data
decreasing_by exact shiftsLeft_lt ‹_›

def extractBytes (bytes : Bytes) : Nat → Int → List Int → Except Raised (List Int)
  | 0, _, l => .ok l
  | n + 1, bitnum, l => do
      let byte ← checkSub bytes n
      extractBytes bytes n (bitnum - 8) (extractBits bitnum byte l)

def getBits (v : BoolVector) : Except Raised (List Int) :=
  if v.nbits = 0 then .ok []
  else do
    let maxbit := v.nbits - 1
    let hiByte := byteOf maxbit
    let delta := wmask7 maxbit
    let last ← checkSub v.bits hiByte
    extractBytes v.bits hiByte.toNat (maxbit - delta - 1)
      (extractBits maxbit (last <<< (7 - delta)) [])

def isZeroFrom : Bytes → Bool
  | [] => true
  | b :: rest => b == 0 && isZeroFrom rest

/-- The loop `compare` of `eq_bits`, from one byte on in both. Where an index is out of range the
handler says yes. -/
def compareFrom : Bytes → Bytes → Bool
  | rest, [] => isZeroFrom rest
  | [], _ => true
  | b :: rest, b' :: rest' => b == b' && compareFrom rest rest'

def order (ba ba' : BoolVector) : BoolVector × BoolVector :=
  if ba.nbits ≥ ba'.nbits then (ba, ba') else (ba', ba)

def eqBits (ba ba' : BoolVector) : Bool :=
  let (v, v') := order ba ba'
  compareFrom v.bits v'.bits

def equal (ba ba' : BoolVector) : Bool := ba.nbits == ba'.nbits && eqBits ba ba'

def cpy : Bytes → Int → Write Unit
  | [], _ => throw .subscript
  | b :: rest, i => do
      store i b
      cpy rest (i + 1)

def copybits (bits : Bytes) : Write Unit := untilRaised (cpy bits 0)

def mkCopy (v : BoolVector) : Except Raised BoolVector := build v.nbits (copybits v.bits)

def extend0 (ba : BoolVector) (n : Int) : Except Raised BoolVector :=
  if ba.nbits ≥ n then mkCopy ba else buildOn n 0 (copybits ba.bits)

def checkFirst : Bytes → Except Raised Byte
  | [] => .error .subscript
  | b :: _ => .ok b

def extendLast (n len : Int) : Write Unit :=
  match mask7 n with
  | 0 => pure ()
  | lft => do store (len - 1) ((← fetch (len - 1)) &&& (← lobits lft))

def extendAdjust (left : Int) (last : Write Unit) (rest : Bytes) (j : Int) : Write Unit :=
  if left ≠ 0 then do
    store j ((← checkFirst rest) ||| (← hibits left))
    last
  else last

def extendCpy (nbytes left : Int) (last : Write Unit) : Bytes → Int → Write Unit
  | rest, i =>
      if i = nbytes then extendAdjust left last rest i
      else
        match rest with
        | [] => throw .subscript
        | b :: rest => do
            store i b
            extendCpy nbytes left last rest (i + 1)

def extend1 (ba : BoolVector) (n : Int) : Except Raised BoolVector :=
  if ba.nbits ≥ n then mkCopy ba
  else
    buildOn n 0xff (extendCpy (byteOf ba.nbits) (mask7 ba.nbits) (extendLast n (sizeOf n)) ba.bits 0)

def fit (lb rb : Byte) (rbits : Int) : Except Raised Byte := do
  return (rb &&& (← lobits rbits)) ||| (lb &&& (← hibits rbits))

def bytesFrom (bytes : Bytes) (s : Int) : Bytes := if s < 0 then [] else bytes.drop s.toNat

def simpleCopy (lastbyte len : Int) : Bytes → Int → Write Unit
  | rest, d =>
      if d = lastbyte then
        match mask7 len with
        | 0 => do store d (← checkFirst rest)
        | lft => do store d (← fit (← fetch d) (← checkFirst rest) lft)
      else
        match rest with
        | [] => throw .subscript
        | b :: rest => do
            store d b
            simpleCopy lastbyte len rest (d + 1)

def finishRight (bitshift : Nat) (len : Int) (sb : Byte) (rest : Bytes) (d : Int) : Write Unit := do
  let lshift := 8 - bitshift
  let left := mask7 (len - 1) + 1
  if left ≤ lshift then store d (← fit (← fetch d) (sb >>> bitshift) left)
  else do
    let sb' := (sb >>> bitshift) ||| ((← checkFirst rest) <<< lshift)
    store d (← fit (← fetch d) sb' left)

@[grind =] def loopRight (bitshift : Nat) (lastbyte len : Int) : Byte → Bytes → Int → Write Unit
  | sb, rest, d =>
      if d = lastbyte then finishRight bitshift len sb rest d
      else
        match rest with
        | [] => throw .subscript
        | sb' :: rest => do
            store d ((sb >>> bitshift) ||| ((sb' <<< (8 - bitshift)) &&& 0xff))
            loopRight bitshift lastbyte len sb' rest (d + 1)

def rightablet (fromBits : Bytes) (shft len : Int) : Write Unit := do
  let byte := byteOf shft
  let bitshift := wmask7 shft
  let lastbyte := byteOf (len - 1)
  if bitshift = 0 then simpleCopy lastbyte len (bytesFrom fromBits byte) 0
  else loopRight bitshift lastbyte len (← checkSub fromBits byte) (bytesFrom fromBits (byte + 1)) 0

def sliceCopy (fromBits : Bytes) (bitshift : Nat) (d len : Int) : Write Unit := do
  let mask := (← lobits len) <<< bitshift
  let sb := ((← checkFirst fromBits) <<< bitshift) &&& mask
  let db := (← fetch d) &&& ~~~mask
  store d (sb ||| db)

def finishLeft (bitshift : Nat) (last : Int) (sb : Byte) (rest : Bytes) (d : Int) : Write Unit := do
  let rshift := 8 - bitshift
  let left := mask7 last + 1
  if left ≤ bitshift then store d (← fit (← fetch d) (sb >>> rshift) left)
  else do
    let sb' := (sb >>> rshift) ||| ((← checkFirst rest) <<< bitshift)
    store d (← fit (← fetch d) sb' left)

/-- The loop of `leftablet`; `last` is the last bit that is written. -/
def loopLeft (bitshift : Nat) (lastbyte last : Int) : Byte → Bytes → Int → Write Unit
  | sb, rest, d =>
      if d = lastbyte then finishLeft bitshift last sb rest d
      else
        match rest with
        | [] => throw .subscript
        | sb' :: rest => do
            store d ((sb >>> (8 - bitshift)) ||| ((sb' <<< bitshift) &&& 0xff))
            loopLeft bitshift lastbyte last sb' rest (d + 1)

def leftablet (fromBits : Bytes) (shft len : Int) : Write Unit :=
  if len = 0 then pure ()
  else do
    let byte := byteOf shft
    let bitshift := wmask7 shft
    let lastbyte := byteOf (shft + len - 1)
    if bitshift = 0 then simpleCopy lastbyte len fromBits byte
    else if lastbyte = byte then sliceCopy fromBits bitshift byte len
    else do
      let sb ← checkFirst fromBits
      store byte (← fit (sb <<< bitshift) (← fetch byte) bitshift)
      loopLeft bitshift lastbyte (shft + len - 1) sb (fromBits.drop 1) (byte + 1)

def lshift (ba : BoolVector) (shft : Int) : Except Raised BoolVector :=
  if shft < 0 then .error (badArg "lshift" "negative shift")
  else if shft = 0 then mkCopy ba
  else buildOn (ba.nbits + shft) 0 (leftablet ba.bits shft ba.nbits)

def append (ba ba' : BoolVector) : Except Raised BoolVector :=
  buildOn (ba.nbits + ba'.nbits) 0 do
    copybits ba'.bits
    leftablet ba.bits ba'.nbits ba.nbits

def catCpy : List BoolVector → Int → Write Unit
  | [], _ => pure ()
  | v :: tl, shft => do
      leftablet v.bits shft v.nbits
      catCpy tl (shft + v.nbits)

def cat : List BoolVector → Except Raised BoolVector
  | [] => makeRwVector 0 false
  | [ba] => mkCopy ba
  | ba :: tl =>
      buildOn (((ba :: tl).map BoolVector.nbits).sum) 0 do
        copybits ba.bits
        catCpy tl ba.nbits

def slice (ba : BoolVector) (sbit len : Int) : Except Raised BoolVector :=
  if len = 0 then makeRwVector 0 false else buildOn len 0 (rightablet ba.bits sbit len)

def extract (ba : BoolVector) (sbit : Int) : Option Int → Except Raised BoolVector
  | some len =>
      if len < 0 ∨ sbit < 0 ∨ ba.nbits - len < sbit then .error .subscript else slice ba sbit len
  | none =>
      if sbit < 0 ∨ ba.nbits < sbit then .error .subscript else slice ba sbit (ba.nbits - sbit)

def rshift (ba : BoolVector) (shft : Int) : Except Raised BoolVector :=
  if shft < 0 then .error (badArg "rshift" "negative shift")
  else if shft = 0 then mkCopy ba
  else if shft ≥ ba.nbits then makeRwVector 0 false
  else buildOn (ba.nbits - shft) 0 (rightablet ba.bits shft (ba.nbits - shft))

def trim (len : Int) : Write Unit :=
  match mask7 len with
  | 0 => pure ()
  | lft => do
      let n : Int := (← get).length - 1
      store n ((← fetch n) &&& (← lobits lft))

/-- The loop `copy` of `and_blend`. The bytes at `i` are read before they are written, also when the
target is the first vector itself. -/
def andCopy : Bytes → Bytes → Int → Write Unit
  | b :: rest, b' :: rest', i => do
      store i (b &&& b')
      andCopy rest rest' (i + 1)
  | _, _, _ => throw .subscript

def andBlend (ba ba' : BoolVector) (len : Int) : Write Unit := do
  untilRaised (andCopy ba.bits ba'.bits 0)
  trim len

/-- The loop `copy1` of `or_blend`, which goes on as `copy2` past the shorter vector. -/
def orCopy (f : Byte → Byte → Byte) : Bytes → Bytes → Int → Write Unit
  | rest, [], i => cpy rest i
  | b :: rest, b' :: rest', i => do
      store i (f b b')
      orCopy f rest rest' (i + 1)
  | [], _, _ => throw .subscript

def orBlend (f : Byte → Byte → Byte) (ba ba' : BoolVector) (len : Int) : Write Unit := do
  let (v, v') := order ba ba'
  untilRaised (orCopy f v.bits v'.bits 0)
  trim len

def newblend (blendf : BoolVector → BoolVector → Int → Write Unit) (ba ba' : BoolVector) (len : Int) :
    Except Raised BoolVector := build len (blendf ba ba' len)

def bitwiseOr (ba ba' : BoolVector) (len : Int) : Except Raised BoolVector :=
  newblend (orBlend fun b b' => b ||| b') ba ba' len

def bitwiseXor (ba ba' : BoolVector) (len : Int) : Except Raised BoolVector :=
  newblend (orBlend fun b b' => b ^^^ b') ba ba' len

def bitwiseAnd (ba ba' : BoolVector) (len : Int) : Except Raised BoolVector :=
  newblend andBlend ba ba' len

def unionLoop (bnd : Int) : Bytes → Bytes → Int → Write Unit
  | rest, rest', i =>
      if i = bnd then pure ()
      else
        match rest, rest' with
        | b :: rest, b' :: rest' => do
            store i (b ||| b')
            unionLoop bnd rest rest' (i + 1)
        | _, _ => throw .subscript

/-- Written into the bytes of the first vector, which may be the second too. -/
def union (ba ba' : BoolVector) : Write Unit :=
  let nbytes : Int := ba.bits.length
  let nbytes' : Int := ba'.bits.length
  if nbytes ≤ nbytes' then do
    unionLoop nbytes ba.bits ba'.bits 0
    trim ba.nbits
  else unionLoop nbytes' ba.bits ba'.bits 0

def zeroLoop : Bytes → Int → Write Unit
  | [], _ => throw .subscript
  | _ :: rest, i => do
      store i 0
      zeroLoop rest (i + 1)

def intersection (ba ba' : BoolVector) : Write Unit :=
  let nbytes : Int := ba.bits.length
  let nbytes' : Int := ba'.bits.length
  if nbytes ≤ nbytes' then andBlend ba ba' (nbytes * 8)
  else do
    andBlend ba ba' (nbytes' * 8)
    untilRaised (zeroLoop (bytesFrom ba.bits nbytes') nbytes')

def flp (nbytes left : Int) : Bytes → Int → Write Unit
  | rest, i =>
      if i = nbytes then do
        if left ≠ 0 then store i (~~~(← checkFirst rest) &&& (← lobits left))
      else
        match rest with
        | [] => throw .subscript
        | b :: rest => do
            store i (~~~b &&& 0xff)
            flp nbytes left rest (i + 1)

def flip (nbits : Int) (fromBits : Bytes) : Write Unit := flp (byteOf nbits) (mask7 nbits) fromBits 0

def bitwiseNot (v : BoolVector) : Except Raised BoolVector := build v.nbits (flip v.nbits v.bits)

def setBit (nbits i : Int) : Write Unit :=
  let j := byteOf i
  let b := bit i
  if nbits ≤ i then throw .subscript
  else do store j ((← fetch j) ||| b)

def clrBit (nbits i : Int) : Write Unit :=
  let j := byteOf i
  let b := ~~~(bit i)
  if nbits ≤ i then throw .subscript
  else do store j ((← fetch j) &&& b)

def complement (v : BoolVector) : Write Unit := flip v.nbits v.bits

def set (nbits i : Int) (x : Bool) : Write Unit := if x then setBit nbits i else clrBit nbits i

def valid (nbits sbit : Int) : Option Int → Except Raised Int
  | none => if sbit < 0 ∨ nbits < sbit then .error .subscript else .ok (nbits - sbit)
  | some len =>
      if sbit < 0 ∨ len < 0 ∨ nbits - len < sbit then .error .subscript else .ok len

/-- `bit_of` on the bytes that are being written. -/
def bitOfTarget (nbits i : Int) : Write Bool := do bitOf ⟨nbits, ← get⟩ i

/-- The loop of `copy'`, with `n` bits to go; the source writes out `set`. -/
def copyLoop (bitOfFrom : Int → Write Bool) (nbits' : Int) : Nat → Int → Int → Write Unit
  | 0, _, _ => pure ()
  | n + 1, si, dst => do
      set nbits' dst (← bitOfFrom si)
      copyLoop bitOfFrom nbits' n (si + 1) (dst + 1)

/-- The source reads the bits of `from` one by one while it writes, and `from` and `into` may be one
vector; `bitOfFrom` is `bit_of` on `from`. -/
def copy' (nbits : Int) (bitOfFrom : Int → Write Bool) (si : Int) (len : Option Int) (nbits' : Int)
    (dst : Int) : Write Unit := do
  let l ← valid nbits si len
  if dst < 0 ∨ nbits' - dst < l then throw .subscript
  else copyLoop bitOfFrom nbits' l.toNat si dst

/-- The loop of `map_in_place` over the bits of a byte. The byte that it returns takes each bit from
`a & mask`, where `a` starts as zero. -/
def mapBits (f : Bool → Except Raised Bool) : Nat → Byte → Byte → Byte → Except Raised Byte
  | 0, _, a, _ => .ok a
  | n + 1, byte, a, mask => do
      if ← f (byte &&& mask == mask) then mapBits f n byte (a &&& mask) (mask <<< 1)
      else mapBits f n byte a (mask <<< 1)

def mapBytes (f' : Int → Byte → Except Raised Byte) : Bytes → Int → Write Unit
  | [], _ => pure ()
  | byte :: rest, i => do
      store i (← f' i byte)
      mapBytes f' rest (i + 1)

def mapInPlace (f : Bool → Except Raised Bool) (v : BoolVector) : Write Unit :=
  if v.nbits = 0 then pure ()
  else
    let last := byteOf (v.nbits - 1)
    mapBytes (fun i byte =>
      if i < last then mapBits f 8 byte 0 1
      else mapBits f (wmask7 (v.nbits - 1) + 1) byte 0 1) v.bits 0

def changeBit (index : Int) (byte biti : Byte) (b b' : Bool) : Write Unit :=
  if b = b' then pure ()
  else if b' then store index (byte ||| biti)
  else store index (byte &&& ~~~biti)

def keyedMapLoop (f : Int → Bool → Except Raised Bool) : Nat → Int → Write Unit
  | 0, _ => pure ()
  | n + 1, i => do
      let index := byteOf i
      let biti := bit i
      let byte ← fetch index
      let b : Bool := byte &&& biti ≠ 0
      let b' ← f i b
      changeBit index byte biti b b'
      keyedMapLoop f n (i + 1)

def keyedMapInPlace' (f : Int → Bool → Except Raised Bool) (nbits sbit : Int) (l : Option Int) :
    Write Unit :=
  if nbits = 0 then pure ()
  else do
    let len ← valid nbits sbit l
    keyedMapLoop f len.toNat sbit

end Mythryl.RwBoolVector
