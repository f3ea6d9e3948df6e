import Mythryl.Numeral
import Mythryl.Runtime
import Mathlib.Data.Fin.Basic
import Mathlib.Data.List.Basic

/-!
# The integers of a pickle

`large_unt_to_bytestring'` writes a 32-bit word in digits of seven bits behind a high bit, the last
byte holding six bits and the sign.
-/

namespace Mythryl.Pickler
open Numeral

abbrev Byte := Fin 256

instance byte_neZero : NeZero 256 := ⟨by decide⟩

abbrev Text := List Byte

def char (c : Char) : Byte := Fin.ofNat 256 c.toNat

def toUnt8 (n : Nat) : Byte := Fin.ofNat 256 n

variable {n : Nat}

theorem toUnt8_val (lt : n < 256) : (toUnt8 n).val = n := Nat.mod_eq_of_lt lt

/-- `unt_to_bytestring'`. What is left of a word after its last six bits goes in four digits. -/
def untToBytestring' : Nat → Nat → Text → Text
  | 0, _, resultBytes => resultBytes
  | fuel+1, n, resultBytes =>
      if n = 0 then resultBytes
      else untToBytestring' fuel (n / 128) (toUnt8 (u32orb (n % 128) 128) :: resultBytes)

def largeUntToBytestring' (n : Nat) (negative : Bool) : Text :=
  let lastDigit := n % 64
  let lastByte := if negative then u32orb lastDigit 64 else lastDigit
  untToBytestring' 4 (n / 64) [toUnt8 lastByte]

def largeUntToBytestring (n : Nat) : Text := largeUntToBytestring' n false

def largeUntFromMultiwordInt (i : Int) : Nat := (i % 2 ^ 32).toNat

def multiwordIntToBytestring (i : Int) : Text :=
  if 0 ≤ i then largeUntToBytestring' (largeUntFromMultiwordInt i) false
  else largeUntToBytestring' (u32neg (largeUntFromMultiwordInt i)) true

def unt1ToBytestring (n : Nat) : Text := largeUntToBytestring n
def untToBytestring (n : Nat) : Text := largeUntToBytestring n
def int1ToBytestring (i : Int) : Text := multiwordIntToBytestring i
def intToBytestring (i : Int) : Text := multiwordIntToBytestring i

def moreByte (d : Nat) : Byte := toUnt8 (d + 128)

def lastByte (d : Nat) (negative : Bool) : Byte := toUnt8 (d + if negative then 64 else 0)

structure Written (n : Nat) (negative : Bool) (ds : List Nat) (text : Text) : Prop where
  lt : ∀ d ∈ ds, d < 128
  short : ds.length ≤ 4
  value : horner 128 0 ds = n / 64
  text : text = ds.map moreByte ++ [lastByte (n % 64) negative]

theorem high_bit {d : Nat} (lt : d < 128) : u32orb d 128 = d + 128 := by
  rw [u32orb_comm, Nat.add_comm]
  exact u32orb_eq (n := 7) lt 1

theorem sign_bit {d : Nat} (lt : d < 64) : u32orb d 64 = d + 64 := by
  rw [u32orb_comm, Nat.add_comm]
  exact u32orb_eq (n := 6) lt 1

theorem untToBytestring'_eq (fuel : Nat) (lt : n < 128 ^ fuel) (result : Text) :
    ∃ ds : List Nat, (∀ d ∈ ds, d < 128) ∧ ds.length ≤ fuel ∧ horner 128 0 ds = n ∧
      untToBytestring' fuel n result = ds.map moreByte ++ result := by
  induction fuel generalizing n result with
  | zero =>
    have : n = 0 := by simpa using lt
    exact ⟨[], by simp, by simp, by simp [this], rfl⟩
  | succ fuel ih =>
    rw [untToBytestring']
    split
    case isTrue zero => exact ⟨[], by simp, by simp, by simp [zero], rfl⟩
    case isFalse pos =>
      have digit : n % 128 < 128 := Nat.mod_lt n (by omega)
      have rest : n / 128 < 128 ^ fuel := by
        rw [Nat.div_lt_iff_lt_mul (by omega), ← Nat.pow_succ]
        exact lt
      obtain ⟨ds, small, short, value, run⟩ := ih rest (moreByte (n % 128) :: result)
      refine ⟨ds ++ [n % 128], ?_, ?_, ?_, ?_⟩
      · simpa [or_imp, forall_and] using ⟨small, digit⟩
      · simpa using short
      · rw [horner_append, value, horner_cons, horner_nil, Nat.mul_comm, Nat.div_add_mod]
      · rw [high_bit digit]
        simpa [moreByte] using run

theorem written (lt : n < 2 ^ 32) (negative : Bool) :
    ∃ ds, Written n negative ds (largeUntToBytestring' n negative) := by
  have rest : n / 64 < 128 ^ 4 := by omega
  have digit : n % 64 < 64 := Nat.mod_lt n (by omega)
  obtain ⟨ds, small, short, value, run⟩ := untToBytestring'_eq 4 rest [lastByte (n % 64) negative]
  refine ⟨ds, small, short, value, ?_⟩
  rw [← run, largeUntToBytestring']
  cases negative with
  | false => rfl
  | true => simp only [sign_bit digit, lastByte, if_true]

theorem untToBytestring'_length (fuel n : Nat) (result : Text) :
    result.length ≤ (untToBytestring' fuel n result).length ∧
      (untToBytestring' fuel n result).length ≤ fuel + result.length := by
  induction fuel generalizing n result with
  | zero => simp [untToBytestring']
  | succ fuel ih =>
    rw [untToBytestring']
    split
    case isTrue => omega
    case isFalse =>
      have := ih (n / 128) (toUnt8 (u32orb (n % 128) 128) :: result)
      simp only [List.length_cons] at this
      omega

theorem largeUntToBytestring'_length (n : Nat) (negative : Bool) :
    0 < (largeUntToBytestring' n negative).length ∧
      (largeUntToBytestring' n negative).length ≤ 5 := by
  exact untToBytestring'_length 4 (n / 64) [_]

theorem multiwordIntToBytestring_length (i : Int) :
    0 < (multiwordIntToBytestring i).length ∧ (multiwordIntToBytestring i).length ≤ 5 := by
  rw [multiwordIntToBytestring]
  split <;> exact largeUntToBytestring'_length _ _

theorem intToBytestring_length_pos (i : Int) : 0 < (intToBytestring i).length :=
  (multiwordIntToBytestring_length i).1

theorem intToBytestring_length_le (i : Int) : (intToBytestring i).length ≤ 5 :=
  (multiwordIntToBytestring_length i).2

theorem written_int {i : Int} (ge : -2 ^ 31 ≤ i) (lt : i < 2 ^ 32) :
    ∃ ds, Written i.natAbs (decide (i < 0)) ds (multiwordIntToBytestring i) := by
  have small : i.natAbs < 2 ^ 32 := by omega
  rw [multiwordIntToBytestring]
  split
  case isTrue nonneg =>
    have word : largeUntFromMultiwordInt i = i.natAbs := by
      rw [largeUntFromMultiwordInt, Int.emod_eq_of_lt nonneg lt]
      omega
    rw [word, decide_eq_false (by omega)]
    exact written small false
  case isFalse negative =>
    have word : u32neg (largeUntFromMultiwordInt i) = i.natAbs := by
      have mod : i % 2 ^ 32 = i + 2 ^ 32 := by
        rw [← Int.add_emod_right, Int.emod_eq_of_lt (by omega) (by omega)]
      rw [u32neg, Word.sub, largeUntFromMultiwordInt, mod]
      omega
    rw [word, decide_eq_true (by omega)]
    exact written small true

/-! # The pickler -/

inductive Stringtree
  | leaf (string : Text)
  | node (left right : Stringtree)
  deriving DecidableEq, Repr

def totalStringBytes : Stringtree → Nat
  | .leaf s => s.length
  | .node p p' => totalStringBytes p + totalStringBytes p'

def backrefEscapeString : Stringtree := .leaf [255]
def backrefBytesize : Nat := 1
def nullbytes : Stringtree := .leaf []

abbrev Codes := List Nat

/-- What identifies a node: its own contents, its datatype tag and the offsets of its kids. -/
structure Key where
  contents : Text
  typetag : Int
  kidlist : Codes
  deriving DecidableEq, Repr

abbrev Map (α β : Type) := α → Option β

def Map.empty {α β : Type} : Map α β := fun _ => none

def Map.set {α β : Type} [DecidableEq α] (m : Map α β) (key : α) (value : β) : Map α β :=
  fun k => if k = key then some value else m k

variable {α β : Type} {x : Nat}

@[simp] theorem Map.empty_apply (k : α) : (Map.empty : Map α β) k = none := rfl

@[simp] theorem Map.set_self [DecidableEq α] (m : Map α β) (key : α) (value : β) :
    m.set key value key = some value := if_pos rfl

theorem Map.set_ne [DecidableEq α] (m : Map α β) {key k : α} (ne : k ≠ key)
    (value : β) : m.set key value k = m k := if_neg ne

theorem Map.of_set [DecidableEq α] {m : Map α β} {key k : α} {value v : β}
    (h : m.set key value k = some v) : (k = key ∧ v = value) ∨ m k = some v := by
  by_cases same : k = key
  · rw [same, set_self] at h
    exact .inl ⟨same, (Option.some.inj h).symm⟩
  · rw [set_ne m same] at h
    exact .inr h

structure SharedValueOffsets where
  valsList : List Nat
  sorted : valsList.Pairwise (· < ·)

def insertOffset (x : Nat) : List Nat → List Nat
  | [] => [x]
  | y :: ys => if x < y then x :: y :: ys else if x = y then y :: ys else y :: insertOffset x ys

theorem mem_insertOffset {z : Nat} {ys : List Nat} : z ∈ insertOffset x ys ↔ z = x ∨ z ∈ ys := by
  induction ys with
  | nil => simp [insertOffset]
  | cons y ys ih =>
    rw [insertOffset]
    split
    case isTrue => simp
    case isFalse =>
      split
      case isTrue eq => simp [eq]
      case isFalse =>
        simp only [List.mem_cons, ih]
        exact or_left_comm

theorem insertOffset_sorted {ys : List Nat} (sorted : ys.Pairwise (· < ·)) :
    (insertOffset x ys).Pairwise (· < ·) := by
  induction ys with
  | nil => simp [insertOffset]
  | cons y ys ih =>
    have ⟨first, rest⟩ := List.pairwise_cons.mp sorted
    rw [insertOffset]
    split
    case isTrue lt =>
      apply List.pairwise_cons.mpr
      refine ⟨?_, sorted⟩
      intro z mem
      cases mem with
      | head => exact lt
      | tail _ mem => exact lt.trans (first z mem)
    case isFalse ge =>
      split
      case isTrue => exact sorted
      case isFalse ne =>
        apply List.pairwise_cons.mpr
        refine ⟨?_, ih rest⟩
        intro z mem
        cases mem_insertOffset.mp mem with
        | inl eq => omega
        | inr mem => exact first z mem

def sharedValueOffsetsEmpty : SharedValueOffsets := ⟨[], List.Pairwise.nil⟩

def sharedValueOffsetsAdd (s : SharedValueOffsets) (offset : Nat) : SharedValueOffsets :=
  ⟨insertOffset offset s.valsList, insertOffset_sorted s.sorted⟩

instance : Membership Nat SharedValueOffsets := ⟨fun s x => x ∈ s.valsList⟩

@[simp] theorem mem_sharedValueOffsetsEmpty (x : Nat) : x ∉ sharedValueOffsetsEmpty :=
  List.not_mem_nil

@[simp] theorem mem_sharedValueOffsetsAdd {s : SharedValueOffsets} {offset : Nat} :
    x ∈ sharedValueOffsetsAdd s offset ↔ x = offset ∨ x ∈ s := mem_insertOffset

structure State (α : Type) where
  picklelocMap : Map Key Nat
  forwardingMap : Map Nat Nat
  adhocMap : α
  pickleBytesize : Nat
  sharedValueOffsets : SharedValueOffsets

abbrev Funtree (α : Type) := State α → Outcome (Codes × Stringtree × State α)

variable {α κ : Type}

def plus (x y : Nat) : Outcome Nat := if x + y < 2 ^ 30 then .ok (x + y) else .error .overflow

theorem plus_eq_ok {y z : Nat} : plus x y = .ok z ↔ x + y < 2 ^ 30 ∧ z = x + y := by
  rw [plus]
  split <;> simp_all [eq_comm]

def both (f g : Funtree α) : Funtree α := fun state => do
  let (codesF, stringtreeF, state') ← f state
  let (codesG, stringtreeG, state'') ← g state'
  return (codesF ++ codesG, .node stringtreeF stringtreeG, state'')

def funtreesToFuntree : Funtree α → List (Funtree α) → Funtree α
  | first, second :: rest => both first (funtreesToFuntree second rest)
  | result, [] => result

def makeFuntreeLeaf (typeTag : Int) (c : Text) : Funtree α := fun state => do
  let key := ⟨c, typeTag, []⟩
  let bytesize ← plus state.pickleBytesize c.length
  match state.picklelocMap key with
  | some pickleloc =>
      return ([pickleloc], .leaf c,
        { state with
          forwardingMap := state.forwardingMap.set state.pickleBytesize pickleloc
          pickleBytesize := bytesize })
  | none =>
      return ([state.pickleBytesize], .leaf c,
        { state with
          picklelocMap := state.picklelocMap.set key state.pickleBytesize
          pickleBytesize := bytesize })

def backref (offset : Nat) : Stringtree := .node backrefEscapeString (.leaf (intToBytestring offset))

def makeFuntreeNode (datatypeTag : Int) (c : Text) : List (Funtree α) → Funtree α
  | [] => makeFuntreeLeaf datatypeTag c
  | firstkid :: morekids => fun state => do
      let bytesize ← plus state.pickleBytesize c.length
      let (kidoffsets, stringtree, state') ←
        funtreesToFuntree firstkid morekids { state with pickleBytesize := bytesize }
      let key := ⟨c, datatypeTag, kidoffsets⟩
      match state.picklelocMap key with
      | some offset =>
          let backRefNum := intToBytestring offset
          let bytesize ← plus state.pickleBytesize (backrefBytesize + backRefNum.length)
          return ([offset], backref offset,
            { state with
              forwardingMap := state.forwardingMap.set state.pickleBytesize offset
              pickleBytesize := bytesize
              sharedValueOffsets := sharedValueOffsetsAdd state'.sharedValueOffsets offset })
      | none =>
          return ([state.pickleBytesize], .node (.leaf c) stringtree,
            { state' with
              picklelocMap := state'.picklelocMap.set key state.pickleBytesize })

structure Sharing (α κ : Type) where
  emptyMap : α
  find : α → κ → Option Nat
  insert : α → κ → Nat → α
  find_emptyMap : ∀ v, find emptyMap v = none
  find_insert : ∀ m v id, find (insert m v id) v = some id
  find_insert_ne : ∀ m v id v', v' ≠ v → find (insert m v id) v' = find m v'

def adhocShare (sharing : Sharing α κ) (w : κ → Funtree α) (v : κ) : Funtree α := fun state =>
  match sharing.find state.adhocMap v with
  | none => w v { state with adhocMap := sharing.insert state.adhocMap v state.pickleBytesize }
  | some i0 => do
      let backrefOffset := (state.forwardingMap i0).getD i0
      let backRefNum := intToBytestring backrefOffset
      let bytesize ← plus state.pickleBytesize (backrefBytesize + backRefNum.length)
      return ([backrefOffset], backref backrefOffset,
        { state with
          pickleBytesize := bytesize
          sharedValueOffsets := sharedValueOffsetsAdd state.sharedValueOffsets backrefOffset })

def trialStart : Nat := 3

def pad (stringtree : Stringtree) : Nat → Stringtree
  | 0 => stringtree
  | n+1 => pad (.node (.leaf [0]) stringtree) n

/-- The loop of `wrap_thunk`: sizes have at most five bytes, so its third round is its last. -/
def wrapThunkLoop (body : Funtree α) (state : State α) :
    Nat → Nat → Nat → Outcome (Codes × Stringtree × State α)
  | 0, _, _ => .error .unfinished
  | fuel+1, nxt, ilen => do
      let (kidoffsets, stringtree, state') ← body { state with pickleBytesize := nxt }
      let ie := intToBytestring (totalStringBytes stringtree)
      if ilen < ie.length then do
        let nxt' ← plus nxt 1
        wrapThunkLoop body state fuel nxt' (ilen + 1)
      else return (kidoffsets, .node (pad (.leaf ie) (ilen - ie.length)) stringtree, state')

def wrapThunk (body : Funtree α) : Funtree α := fun state => do
  let nxt ← plus state.pickleBytesize trialStart
  wrapThunkLoop body state 3 nxt trialStart

namespace Tag

def int : Int := -1
def unt : Int := -2
def oneWordInt : Int := -3
def oneWordUnt : Int := -4
def list : Int := -5
def nullOr : Int := -6
def pair : Int := -7
def string : Int := -8
def bool : Int := -9

end Tag

variable {X A B : Type}

def wrapInt (i : Int) : Funtree α := makeFuntreeLeaf Tag.int (intToBytestring i)
def wrapUnt (u : Nat) : Funtree α := makeFuntreeLeaf Tag.unt (untToBytestring u)
def wrapInt1 (i : Int) : Funtree α := makeFuntreeLeaf Tag.oneWordInt (int1ToBytestring i)
def wrapUnt1 (u : Nat) : Funtree α := makeFuntreeLeaf Tag.oneWordUnt (unt1ToBytestring u)

def wrapPair (wrapA : A → Funtree α) (wrapB : B → Funtree α) : A × B → Funtree α
  | (a, b) => makeFuntreeNode Tag.pair [char 'p'] [wrapA a, wrapB b]

def wrapNullOr (wrapAValue : X → Funtree α) : Option X → Funtree α
  | some value => makeFuntreeNode Tag.nullOr [char 's'] [wrapAValue value]
  | none => makeFuntreeLeaf Tag.nullOr [char 'n']

abbrev Quint (X : Type) := X × X × X × X × X

def chop5 : List X → List (Quint X) → List X × List (Quint X)
  | e :: d :: c :: b :: a :: rest, cl => chop5 rest ((a, b, c, d, e) :: cl)
  | rest, cl => (rest.reverse, cl)

def chopIntoQuints (listToChop : List X) : List X × List (Quint X) := chop5 listToChop.reverse []

def wrapQuints (p : X → Funtree α) : List (Quint X) → Funtree α
  | [] => makeFuntreeLeaf Tag.list [char 'N']
  | (a, b, c, d, e) :: quints =>
      makeFuntreeNode Tag.list [char 'C'] [p a, p b, p c, p d, p e, wrapQuints p quints]

def wrapList (p : X → Funtree α) (listToPickle : List X) : Funtree α :=
  let node (c : Char) : List (Funtree α) → Funtree α := makeFuntreeNode Tag.list [char c]
  match chopIntoQuints listToPickle with
  | ([], []) => makeFuntreeLeaf Tag.list [char '0']
  | ([a], []) => node '1' [p a]
  | ([a, b], []) => node '2' [p a, p b]
  | ([a, b, c], []) => node '3' [p a, p b, p c]
  | ([a, b, c, d], []) => node '4' [p a, p b, p c, p d]
  | ([], quints) => node '5' [wrapQuints p quints]
  | ([a], quints) => node '6' [p a, wrapQuints p quints]
  | ([a, b], quints) => node '7' [p a, p b, wrapQuints p quints]
  | ([a, b, c], quints) => node '8' [p a, p b, p c, wrapQuints p quints]
  | ([a, b, c, d], quints) => node '9' [p a, p b, p c, p d, wrapQuints p quints]
  | _ => fun _ => .error .fail

/-- The hack that makes `make_funtree_node` share strings: a kid without codes or output. -/
def dummyPickle : Funtree α := fun state => .ok ([], nullbytes, state)

def esc (c : Byte) : Text :=
  if c = char '\\' then [char '\\', char '\\']
  else if c = char '"' then [char '\\', char '"']
  else if c = 255 then [char '\\', 255]
  else [c]

def wrapString (string : Text) : Funtree α :=
  makeFuntreeNode Tag.string (char '"' :: string.flatMap esc ++ [char '"']) [dummyPickle]

def wrapBool : Bool → Funtree α
  | true => makeFuntreeLeaf Tag.bool [char 't']
  | false => makeFuntreeLeaf Tag.bool [char 'f']

def charFromInt (i : Nat) : Outcome Byte :=
  if h : i < 256 then .ok ⟨i, h⟩ else .error .badChar

def add (string : Text) (byteOffsetWithinPickle sharedValueOffset : Nat)
    (moreSharedValueOffsets : List Nat) (stringlist : List Text) :
    Outcome (Nat × List Nat × List Text) :=
  match string with
  | [] => return (byteOffsetWithinPickle, sharedValueOffset :: moreSharedValueOffsets, stringlist)
  | first :: rest =>
      let newByteOffsetWithinPickle := byteOffsetWithinPickle - string.length
      if newByteOffsetWithinPickle ≠ sharedValueOffset then
        return (newByteOffsetWithinPickle, sharedValueOffset :: moreSharedValueOffsets,
          string :: stringlist)
      else do
        let newFirstByte ← charFromInt (first.val + 128)
        if string.length > 1 then
          return (newByteOffsetWithinPickle, moreSharedValueOffsets,
            [newFirstByte] :: rest :: stringlist)
        else
          return (newByteOffsetWithinPickle, moreSharedValueOffsets, [newFirstByte] :: stringlist)

def Stringtree.weight : Stringtree → Nat
  | .leaf _ => 1
  | .node left right => left.weight + 2 * right.weight

theorem Stringtree.weight_pos (t : Stringtree) : 0 < t.weight := by
  induction t with
  | leaf => exact Nat.one_pos
  | node left right ihl ihr => rw [weight]; omega

def fastFlatten : Stringtree → List Text → List Text
  | .leaf string, results => string :: results
  | .node x (.leaf string), result => fastFlatten x (string :: result)
  | .node a (.node b c), result => fastFlatten (.node (.node a b) c) result
  termination_by t _ => t.weight
  decreasing_by
    · simp only [Stringtree.weight]; omega
    · have := Stringtree.weight_pos c
      simp only [Stringtree.weight]
      omega

def flatten : Stringtree → Nat × List Nat × List Text → Outcome (List Text)
  | stringtree, (_, [], results) => return fastFlatten stringtree results
  | .leaf string, (byteOffset, sharedValueOffset :: more, results) => do
      let (_, _, results) ← add string byteOffset sharedValueOffset more results
      return results
  | .node stringtree (.leaf string), (byteOffset, sharedValueOffset :: more, results) => do
      let triple ← add string byteOffset sharedValueOffset more results
      flatten stringtree triple
  | .node a (.node b c), triple => flatten (.node (.node a b) c) triple
  termination_by t _ => t.weight
  decreasing_by
    · simp only [Stringtree.weight]; omega
    · have := Stringtree.weight_pos c
      simp only [Stringtree.weight]
      omega

def stringtreeToString (stringtree : Stringtree) (pickleLengthInBytes : Nat)
    (sharedValueOffsets : SharedValueOffsets) : Outcome Text := do
  let stringlist ←
    flatten stringtree (pickleLengthInBytes, sharedValueOffsets.valsList.reverse, [])
  return stringlist.flatten

def startState (adhocMap : α) : State α :=
  { picklelocMap := .empty, forwardingMap := .empty, adhocMap, pickleBytesize := 0,
    sharedValueOffsets := sharedValueOffsetsEmpty }

def funtreeToPickle (adhocMap : α) (funtree : Funtree α) : Outcome Text := do
  let (_, stringtree, state) ← funtree (startState adhocMap)
  stringtreeToString stringtree state.pickleBytesize state.sharedValueOffsets

end Mythryl.Pickler
