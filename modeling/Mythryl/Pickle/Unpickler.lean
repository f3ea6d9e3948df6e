import Mythryl.Pickle.Invariant

/-! # The unpickler -/

namespace Mythryl.Unpickler
open Pickler

inductive Ty
  | bool | int | int1 | unt | unt1 | string
  | list (element : Ty)
  | nullOr (value : Ty)
  | pair (a b : Ty)
  | thunk (result : Ty)
  deriving DecidableEq, Repr

def TaggedInt := { i : Int // -2 ^ 30 ≤ i ∧ i < 2 ^ 30 }
def OneWordInt := { i : Int // -2 ^ 31 ≤ i ∧ i < 2 ^ 31 }
def TaggedUnt := { u : Nat // u < 2 ^ 31 }
def OneWordUnt := { u : Nat // u < 2 ^ 32 }

@[reducible] def Val : Ty → Type
  | .bool => Bool
  | .int => TaggedInt
  | .int1 => OneWordInt
  | .unt => TaggedUnt
  | .unt1 => OneWordUnt
  | .string => Text
  | .list t => List (Val t)
  | .nullOr t => Option (Val t)
  | .pair a b => Val a × Val b
  | .thunk t => Val t

/-- A value that a reader returns. A thunk is the index of its memo. -/
@[reducible] def Got : Ty → Type
  | .bool => Bool
  | .int => TaggedInt
  | .int1 => OneWordInt
  | .unt => TaggedUnt
  | .unt1 => OneWordUnt
  | .string => Text
  | .list t => List (Got t)
  | .nullOr t => Option (Got t)
  | .pair a b => Got a × Got b
  | .thunk _ => Nat

variable {α : Type}

def wrap : (t : Ty) → Val t → Funtree α
  | .bool, b => wrapBool b
  | .int, i => wrapInt i.val
  | .int1, i => wrapInt1 i.val
  | .unt, u => wrapUnt u.val
  | .unt1, u => wrapUnt1 u.val
  | .string, s => wrapString s
  | .list t, l => wrapList (wrap t) l
  | .nullOr t, v => wrapNullOr (wrap t) v
  | .pair a b, p => wrapPair (wrap a) (wrap b) p
  | .thunk t, v => wrapThunk (wrap t v)

structure Memo where
  result : Ty
  start : Int
  value : Option (Got result)

structure ReaderState where
  position : Int
  sharemaps : (t : Ty) → Map Int (Got t × Int)
  memos : List Memo

def makeUnpickler : ReaderState := ⟨0, fun _ => .empty, []⟩

abbrev PickleReader (V : Type) := StateT ReaderState Outcome V

variable {V : Type}

def format : PickleReader V := fun _ => .error .format

def getchar (pickleString : Text) : PickleReader Byte := fun state =>
  if 0 ≤ state.position then
    match pickleString[state.position.toNat]? with
    | some c => .ok (c, { state with position := state.position + 1 })
    | none => .error .format
  else .error .format

def seek (newPosition : Int) : PickleReader Unit := fun state =>
  .ok ((), { state with position := newPosition })

def tell : PickleReader Int := fun state => .ok (state.position, state)

def fromAnyInt (byteSource : PickleReader Byte) : Nat → Nat → PickleReader (Nat × Bool)
  | 0, _ => fun _ => .error .unfinished
  | fuel+1, n => do
      let w8 ← byteSource
      if u32andb w8.val 128 = 0 then
        return (u32add (u32mul n 64) (u32andb w8.val 63), decide (u32andb w8.val 64 ≠ 0))
      else fromAnyInt byteSource fuel (u32add (u32mul n 128) (u32andb w8.val 127))

def orFormat (converted : Outcome V) : PickleReader V := fun state =>
  match converted with
  | .ok v => .ok (v, state)
  | .error _ => .error .format

def fromLargeUnt (convert : Nat → Outcome V) (byteSource : PickleReader Byte) (fuel : Nat) :
    PickleReader V := do
  match ← fromAnyInt byteSource fuel 0 with
  | (w, false) => orFormat (convert w)
  | (_, true) => format

def largeUntToMultiwordIntX (w : Nat) : Int := if w < 2 ^ 31 then w else w - 2 ^ 32

def fromLargeInt (convert : Int → Outcome V) (byteSource : PickleReader Byte) (fuel : Nat) :
    PickleReader V := do
  let (wpos, negative) ← fromAnyInt byteSource fuel 0
  let w := if negative then u32sub 0 wpos else wpos
  orFormat (convert (largeUntToMultiwordIntX w))

def intFromMultiwordInt (i : Int) : Outcome TaggedInt :=
  if h : -2 ^ 30 ≤ i ∧ i < 2 ^ 30 then .ok ⟨i, h⟩ else .error .overflow

def oneWordIntFromMultiwordInt (i : Int) : Outcome OneWordInt :=
  if h : -2 ^ 31 ≤ i ∧ i < 2 ^ 31 then .ok ⟨i, h⟩ else .error .overflow

def untFromLargeUnt (w : Nat) : Outcome TaggedUnt := .ok ⟨w % 2 ^ 31, Nat.mod_lt w (by decide)⟩

def oneWordUntFromLargeUnt (w : Nat) : Outcome OneWordUnt :=
  .ok ⟨w % 2 ^ 32, Nat.mod_lt w (by decide)⟩

variable (pickleString : Text) (fuel : Nat)

def readInt : PickleReader TaggedInt := fromLargeInt intFromMultiwordInt (getchar pickleString) fuel

def readInt1 : PickleReader OneWordInt :=
  fromLargeInt oneWordIntFromMultiwordInt (getchar pickleString) fuel

def readUnt : PickleReader TaggedUnt := fromLargeUnt untFromLargeUnt (getchar pickleString) fuel

def readUnt1 : PickleReader OneWordUnt :=
  fromLargeUnt oneWordUntFromLargeUnt (getchar pickleString) fuel

variable (t : Ty)

def getShared (position : Int) : PickleReader (Option (Got t × Int)) := fun state =>
  .ok (state.sharemaps t position, state)

def setShared (position : Int) (entry : Got t × Int) : PickleReader Unit := fun state =>
  .ok ((), { state with
    sharemaps := Function.update state.sharemaps t ((state.sharemaps t).set position entry) })

/-- The caller sees to it that `c` has its high bit set. -/
def firstTime (readValueOfMyType : Byte → PickleReader (Got t)) (position : Int) (c : Byte) :
    PickleReader (Got t) := do
  let v ← readValueOfMyType (toUnt8 (c.val - 128))
  let position' ← tell
  setShared t position (v, position')
  return v

def readSharableValue (readValueOfMyType : Byte → PickleReader (Got t)) : PickleReader (Got t) := do
  let c ← getchar pickleString
  if c.val < 128 then readValueOfMyType c
  else if c = 255 then do
    let position ← readInt pickleString fuel
    match ← getShared t position.val with
    | some (v, _) => return v
    | none => do
        let here ← tell
        seek position.val
        let c ← getchar pickleString
        let v ← firstTime t readValueOfMyType position.val c
        seek here
        return v
  else do
    let after ← tell
    let position := after - 1
    match ← getShared t position with
    | some (v, position') => do
        seek position'
        return v
    | none => firstTime t readValueOfMyType position c

def readUnsharableValue (f : Byte → PickleReader V) : PickleReader V := do
  let c ← getchar pickleString
  f c

def getSize : Nat → PickleReader Int
  | 0 => fun _ => .error .unfinished
  | rounds+1 => do
      let size ← readInt pickleString fuel
      if size.val = 0 then getSize rounds else return size.val

def plusInt (x y : Int) : PickleReader Int := fun state =>
  if -2 ^ 30 ≤ x + y ∧ x + y < 2 ^ 30 then .ok (x + y, state) else .error .overflow

def makeMemo (start : Int) : PickleReader Nat := fun state =>
  .ok (state.memos.length, { state with memos := state.memos ++ [⟨t, start, none⟩] })

/-- `read_lazy` only looks at the size of the value; `force` below is what its thunk does. -/
def readLazy : PickleReader Nat := do
  let size ← getSize pickleString fuel fuel
  let start ← tell
  let memo ← makeMemo t start
  let stop ← plusInt start size
  seek stop
  return memo

def readEach (readValue : PickleReader V) : Nat → PickleReader (List V)
  | 0 => return []
  | n+1 => do
      let v ← readValue
      let vs ← readEach readValue n
      return v :: vs

def readchopslist (readValue : PickleReader V) (readChops : PickleReader (List V)) (c : Byte) :
    PickleReader (List V) :=
  if c = char 'N' then return []
  else if c = char 'C' then do
    let five ← readEach readValue 5
    let rest ← readChops
    return five ++ rest
  else format

def readChops (readValue : PickleReader (Got t)) : Nat → PickleReader (List (Got t))
  | 0 => fun _ => .error .unfinished
  | rounds+1 => readSharableValue pickleString fuel (.list t)
      (readchopslist readValue (readChops readValue rounds))

def readFrontAndChops (readValue : PickleReader (Got t)) (n : Nat) : PickleReader (List (Got t)) := do
  let front ← readEach readValue n
  let rest ← readChops pickleString fuel t readValue fuel
  return front ++ rest

def readlist (readValue : PickleReader (Got t)) (c : Byte) : PickleReader (List (Got t)) :=
  if c = char '0' then return []
  else if c = char '1' then readEach readValue 1
  else if c = char '2' then readEach readValue 2
  else if c = char '3' then readEach readValue 3
  else if c = char '4' then readEach readValue 4
  else if c = char '5' then readFrontAndChops pickleString fuel t readValue 0
  else if c = char '6' then readFrontAndChops pickleString fuel t readValue 1
  else if c = char '7' then readFrontAndChops pickleString fuel t readValue 2
  else if c = char '8' then readFrontAndChops pickleString fuel t readValue 3
  else if c = char '9' then readFrontAndChops pickleString fuel t readValue 4
  else format

def readList (readValue : PickleReader (Got t)) : PickleReader (List (Got t)) :=
  readSharableValue pickleString fuel (.list t) (readlist pickleString fuel t readValue)

def readNullOr' (readValue : PickleReader V) (c : Byte) : PickleReader (Option V) :=
  if c = char 'n' then return none
  else if c = char 's' then do
    let v ← readValue
    return some v
  else format

def readNullOr (readValue : PickleReader (Got t)) : PickleReader (Option (Got t)) :=
  readSharableValue pickleString fuel (.nullOr t) (readNullOr' readValue)

def readPair' {A B : Type} (readA : PickleReader A) (readB : PickleReader B) (c : Byte) :
    PickleReader (A × B) :=
  if c = char 'p' then do
    let x ← readA
    let y ← readB
    return (x, y)
  else format

def readPair (a b : Ty) (readA : PickleReader (Got a)) (readB : PickleReader (Got b)) :
    PickleReader (Got a × Got b) :=
  readSharableValue pickleString fuel (.pair a b) (readPair' readA readB)

def readBool' (c : Byte) : PickleReader Bool :=
  if c = char 't' then return true
  else if c = char 'f' then return false
  else format

def readBool : PickleReader Bool := readUnsharableValue pickleString readBool'

def readStringLoop : Nat → Text → Byte → PickleReader Text
  | 0, _, _ => fun _ => .error .unfinished
  | rounds+1, l, c =>
      if c = char '"' then return l.reverse
      else if c = char '\\' then do
        let escaped ← getchar pickleString
        let next ← getchar pickleString
        readStringLoop rounds (escaped :: l) next
      else do
        let next ← getchar pickleString
        readStringLoop rounds (c :: l) next

def readString' (c : Byte) : PickleReader Text :=
  if c = char '"' then do
    let first ← getchar pickleString
    readStringLoop pickleString fuel [] first
  else format

def readString : PickleReader Text :=
  readSharableValue pickleString fuel .string (readString' pickleString fuel)

def read : (t : Ty) → PickleReader (Got t)
  | .bool => readBool pickleString
  | .int => readInt pickleString fuel
  | .int1 => readInt1 pickleString fuel
  | .unt => readUnt pickleString fuel
  | .unt1 => readUnt1 pickleString fuel
  | .string => readString pickleString fuel
  | .list t => readList pickleString fuel t (read t)
  | .nullOr t => readNullOr pickleString fuel t (read t)
  | .pair a b => readPair pickleString fuel a b (read a) (read b)
  | .thunk t => readLazy pickleString fuel t

def thunk (start : Int) : PickleReader (Got t) := do
  let initialPosition ← tell
  seek start
  let v ← read pickleString fuel t
  seek initialPosition
  return v

def force (memo : Nat) : PickleReader ((t : Ty) × Got t) := fun state =>
  match state.memos[memo]? with
  | none => .error .fail
  | some ⟨t, _, some v⟩ => .ok (⟨t, v⟩, state)
  | some ⟨t, start, none⟩ => do
      let (v, state') ← thunk pickleString fuel t start state
      return (⟨t, v⟩, { state' with memos := state'.memos.set memo ⟨t, start, some v⟩ })

end Mythryl.Unpickler

/-! # The wires of typed values -/

namespace Mythryl.Unpickler
open Pickler

variable {α κ X : Type}

def token (c : Char) : Token := ⟨[char c], List.cons_ne_nil _ _⟩

def opcode (c : Char) (h : (char c).val < 127) : Opcode := ⟨[char c], char c, [], rfl, h⟩

def intToken (i : Int) : Token :=
  ⟨multiwordIntToBytestring i, List.length_pos_iff.mp (multiwordIntToBytestring_length i).1⟩

def untToken (u : Nat) : Token :=
  ⟨largeUntToBytestring u, List.length_pos_iff.mp (largeUntToBytestring'_length u false).1⟩

def stringOpcode (s : Text) : Opcode :=
  ⟨char '"' :: s.flatMap esc ++ [char '"'], char '"', s.flatMap esc ++ [char '"'], rfl, by decide⟩

def quintsWire (p : X → Wire κ) : List (Quint X) → Wire κ
  | [] => .leaf Tag.list (token 'N')
  | (a, b, c, d, e) :: quints =>
      .node Tag.list (opcode 'C' (by decide)) [p a, p b, p c, p d, p e, quintsWire p quints]

def listOpcode : Nat → Opcode
  | 0 => opcode '0' (by decide)
  | 1 => opcode '1' (by decide)
  | 2 => opcode '2' (by decide)
  | 3 => opcode '3' (by decide)
  | 4 => opcode '4' (by decide)
  | 5 => opcode '5' (by decide)
  | 6 => opcode '6' (by decide)
  | 7 => opcode '7' (by decide)
  | 8 => opcode '8' (by decide)
  | _ => opcode '9' (by decide)

def listWire (p : X → Wire κ) (l : List X) : Wire κ :=
  match chopIntoQuints l with
  | ([], []) => .leaf Tag.list (token '0')
  | (front, []) => .node Tag.list (listOpcode front.length) (front.map p)
  | (front, quint :: quints) => .node Tag.list (listOpcode (5 + front.length))
      (front.map p ++ [quintsWire p (quint :: quints)])

def wire : (t : Ty) → Val t → Wire Empty
  | .bool, true => .leaf Tag.bool (token 't')
  | .bool, false => .leaf Tag.bool (token 'f')
  | .int, i => .leaf Tag.int (intToken i.val)
  | .int1, i => .leaf Tag.oneWordInt (intToken i.val)
  | .unt, u => .leaf Tag.unt (untToken u.val)
  | .unt1, u => .leaf Tag.oneWordUnt (untToken u.val)
  | .string, s => .node Tag.string (stringOpcode s) [.dummy]
  | .list t, l => listWire (wire t) l
  | .nullOr t, some v => .node Tag.nullOr (opcode 's' (by decide)) [wire t v]
  | .nullOr _, none => .leaf Tag.nullOr (token 'n')
  | .pair a b, (x, y) => .node Tag.pair (opcode 'p' (by decide)) [wire a x, wire b y]
  | .thunk t, v => .thunk (wire t v)

def unchop (quints : List (Quint X)) : List X :=
  quints.flatMap fun (a, b, c, d, e) => [a, b, c, d, e]

theorem chop5_spec (l : List X) (cl : List (Quint X)) : (chop5 l cl).1.length ≤ 4 ∧
      l.reverse ++ unchop cl = (chop5 l cl).1 ++ unchop (chop5 l cl).2 := by
  induction l, cl using chop5.induct with
  | case1 e d c b a rest cl ih =>
    rw [chop5]
    refine ⟨ih.1, ?_⟩
    rw [← ih.2]
    simp [unchop]
  | case2 rest cl short =>
    match rest, short with
    | [], _ | [_], _ | [_, _], _ | [_, _, _], _ | [_, _, _, _], _ => simp [chop5]
    | e :: d :: c :: b :: a :: rest, short => exact absurd rfl (short e d c b a rest)

theorem chopIntoQuints_spec (l : List X) :
    ∃ front quints, chopIntoQuints l = (front, quints) ∧ front.length ≤ 4 ∧
      l = front ++ unchop quints := by
  obtain ⟨short, eq⟩ := chop5_spec l.reverse []
  refine ⟨_, _, rfl, short, ?_⟩
  simpa [unchop] using eq

theorem listWire_eq (p : X → Wire κ) (l : List X) :
    (l = [] ∧ listWire p l = .leaf Tag.list (token '0')) ∨
      ∃ front quints, front.length ≤ 4 ∧ l = front ++ unchop quints ∧
        (quints = [] ∧ 0 < front.length ∧
            listWire p l = .node Tag.list (listOpcode front.length) (front.map p) ∨
          quints ≠ [] ∧ listWire p l = .node Tag.list (listOpcode (5 + front.length))
            (front.map p ++ [quintsWire p quints])) := by
  obtain ⟨front, quints, chop, short, eq⟩ := chopIntoQuints_spec l
  rw [listWire, chop]
  cases quints with
  | nil =>
    cases front with
    | nil => exact .inl ⟨by simpa [unchop] using eq, rfl⟩
    | cons x front => exact .inr ⟨_, [], short, eq, .inl ⟨rfl, Nat.succ_pos _, rfl⟩⟩
  | cons quint quints =>
    exact .inr ⟨front, _, short, eq, .inr ⟨List.cons_ne_nil _ _, by cases front <;> rfl⟩⟩

theorem quintsWire_funtree (sharing : Sharing α κ) {p : X → Wire κ} {q : X → Funtree α}
    (same : ∀ x, (p x).funtree sharing = q x) (quints : List (Quint X)) :
    (quintsWire p quints).funtree sharing = wrapQuints q quints := by
  induction quints with
  | nil => rfl
  | cons quint quints ih =>
    simp only [quintsWire, Wire.funtree, Wire.funtrees, wrapQuints, same, ih]
    rfl

theorem listWire_funtree (sharing : Sharing α κ) {p : X → Wire κ} {q : X → Funtree α}
    (same : ∀ x, (p x).funtree sharing = q x) (l : List X) :
    (listWire p l).funtree sharing = wrapList q l := by
  have quints := quintsWire_funtree sharing same
  obtain ⟨front, qs, chop, short, -⟩ := chopIntoQuints_spec l
  rw [listWire, wrapList, chop]
  cases qs with
  | nil =>
    match front, short with
    | [], _ => rfl
    | [a], _ | [a, b], _ | [a, b, c], _ | [a, b, c, d], _ =>
      simp only [List.map, List.length, Wire.funtree, Wire.funtrees, same]
      rfl
  | cons quint qs =>
    match front, short with
    | [], _ | [a], _ | [a, b], _ | [a, b, c], _ | [a, b, c, d], _ =>
      simp only [List.map, List.length, List.cons_append, List.nil_append, Wire.funtree,
        Wire.funtrees, same, quints]
      rfl

theorem wire_funtree (sharing : Sharing α Empty) (t : Ty) (v : Val t) :
    (wire t v).funtree sharing = wrap t v := by
  induction t with
  | bool => cases v <;> rfl
  | int => rfl
  | int1 => rfl
  | unt => rfl
  | unt1 => rfl
  | string => rfl
  | list t ih => exact listWire_funtree sharing ih v
  | nullOr t ih =>
    cases v with
    | none => rfl
    | some v =>
      simp only [wire, Wire.funtree, Wire.funtrees, ih]
      rfl
  | pair a b iha ihb =>
    simp only [wire, Wire.funtree, Wire.funtrees, iha, ihb]
    rfl
  | thunk t ih => exact congrArg wrapThunk (ih v)

mutual

def parts : Wire κ → List (Wire κ)
  | .leaf tag c => [.leaf tag c]
  | .node tag c kids => .node tag c kids :: partsAll kids
  | .dummy => [.dummy]
  | .thunk body => .thunk body :: parts body
  | .share v tag c kids => .share v tag c kids :: partsAll kids

def partsAll : List (Wire κ) → List (Wire κ)
  | [] => []
  | kid :: kids => parts kid ++ partsAll kids

end

theorem mem_parts_self (s : Wire κ) : s ∈ parts s := by
  cases s <;> simp [parts]

theorem mem_partsAll {s kid : Wire κ} {kids : List (Wire κ)} (mem : kid ∈ kids) (part : s ∈ parts kid) :
    s ∈ partsAll kids := by
  induction kids with
  | nil => cases mem
  | cons kid' kids ih =>
    rw [partsAll, List.mem_append]
    cases mem with
    | head => exact .inl part
    | tail _ mem => exact .inr (ih mem)

mutual

theorem parts_trans {a : Wire κ} {b : Wire κ} (c : Wire κ) (ab : a ∈ parts b) (bc : b ∈ parts c) :
    a ∈ parts c := by
  cases c with
  | leaf tag contents =>
    obtain rfl := List.mem_singleton.mp bc
    exact ab
  | node tag contents kids =>
    cases bc with
    | head => exact ab
    | tail _ bc => exact .tail _ (partsAll_trans kids ab bc)
  | dummy =>
    obtain rfl := List.mem_singleton.mp bc
    exact ab
  | thunk body =>
    cases bc with
    | head => exact ab
    | tail _ bc => exact .tail _ (parts_trans body ab bc)
  | share v tag contents kids =>
    cases bc with
    | head => exact ab
    | tail _ bc => exact .tail _ (partsAll_trans kids ab bc)

theorem partsAll_trans {a : Wire κ} {b : Wire κ} (kids : List (Wire κ)) (ab : a ∈ parts b)
    (bc : b ∈ partsAll kids) : a ∈ partsAll kids := by
  cases kids with
  | nil => cases bc
  | cons kid kids =>
    rw [partsAll, List.mem_append] at bc ⊢
    exact bc.imp (parts_trans kid ab) (partsAll_trans kids ab)

end

mutual

theorem bound_le_of_mem {a : Wire κ} (s : Wire κ) (mem : a ∈ parts s) : a.bound ≤ s.bound := by
  cases s with
  | leaf tag c =>
    obtain rfl := List.mem_singleton.mp mem
    exact le_refl _
  | node tag c kids =>
    cases mem with
    | head => exact le_refl _
    | tail _ mem =>
      have := bound_le_of_memAll kids mem
      simp only [Wire.bound]
      omega
  | dummy =>
    obtain rfl := List.mem_singleton.mp mem
    exact le_refl _
  | thunk body =>
    cases mem with
    | head => exact le_refl _
    | tail _ mem => exact (bound_le_of_mem body mem).trans (Nat.le_add_right _ _)
  | share v tag c kids =>
    cases mem with
    | head => exact le_refl _
    | tail _ mem =>
      have := bound_le_of_memAll kids mem
      simp only [Wire.bound]
      omega

theorem bound_le_of_memAll {a : Wire κ} (kids : List (Wire κ)) (mem : a ∈ partsAll kids) :
    a.bound ≤ Wire.bounds kids := by
  cases kids with
  | nil => cases mem
  | cons kid kids =>
    cases List.mem_append.mp mem with
    | inl mem => exact (bound_le_of_mem kid mem).trans (Nat.le_add_right _ _)
    | inr mem => exact (bound_le_of_memAll kids mem).trans (Nat.le_add_left _ _)

end

def IsNode : Wire κ → Prop
  | .leaf _ _ => True
  | .node _ _ _ => True
  | _ => False

/-- Nodes of the wire that look the same to sharing are the same: they have thunks in the same
places. -/
def ThunksAgree (s : Wire κ) : Prop :=
  ∀ a ∈ parts s, ∀ b ∈ parts s, IsNode a → IsNode b → a.content = b.content → a = b

mutual

theorem agrees_of_empty (w : Wire.Sharer Empty) (s : Wire Empty) : s.Agrees w := by
  cases s with
  | leaf tag c => trivial
  | node tag c kids => exact agreesAll_of_empty w kids
  | dummy => trivial
  | thunk body => exact agrees_of_empty w body
  | share v tag c kids => exact v.elim

theorem agreesAll_of_empty (w : Wire.Sharer Empty) (kids : List (Wire Empty)) :
    Wire.AgreesAll w kids := by
  cases kids with
  | nil => trivial
  | cons kid kids => exact ⟨agrees_of_empty w kid, agreesAll_of_empty w kids⟩

end

def nodes (s : Wire Empty) : Wire.NodeSet Empty := fun tag c kids => .node tag c kids ∈ parts s

mutual

theorem within_nodes {root : Wire Empty} (s : Wire Empty) (sub : ∀ a ∈ parts s, a ∈ parts root) :
    s.Within (nodes root) := by
  cases s with
  | leaf tag c => trivial
  | node tag c kids => exact ⟨sub _ (.head _), withinAll_nodes kids fun a mem => sub a (.tail _ mem)⟩
  | dummy => trivial
  | thunk body => exact within_nodes body fun a mem => sub a (.tail _ mem)
  | share v tag c kids => exact v.elim

theorem withinAll_nodes {root : Wire Empty} (kids : List (Wire Empty))
    (sub : ∀ a ∈ partsAll kids, a ∈ parts root) : Wire.WithinAll (nodes root) kids := by
  cases kids with
  | nil => trivial
  | cons kid kids =>
    refine ⟨within_nodes kid ?_, withinAll_nodes kids ?_⟩
    · exact fun a mem => sub a (List.mem_append_left _ mem)
    · exact fun a mem => sub a (List.mem_append_right _ mem)

end

end Mythryl.Unpickler
