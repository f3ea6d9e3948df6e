import Mythryl.RwBoolVector.Invariant

/-! # Runs over vectors of Booleans -/

namespace Mythryl.RwBoolVector
open RaisingState

abbrev Store := List BoolVector

inductive Op
  | makeRwVector (len : Int) (init : Bool)
  | fromString (s : Bytes)
  | bits (len : Int) (l : List Int)
  | fromList (l : List Bool)
  | fromFn (len : Int) (genf : Int → Except Raised Bool)
  | mkCopy (r : Nat)
  | extend0 (r : Nat) (n : Int)
  | extend1 (r : Nat) (n : Int)
  | lshift (r : Nat) (shft : Int)
  | append (r r' : Nat)
  | cat (rs : List Nat)
  | slice (r : Nat) (sbit len : Int)
  | extract (r : Nat) (sbit : Int) (len : Option Int)
  | rshift (r : Nat) (shft : Int)
  | bitwiseAnd (r r' : Nat) (len : Int)
  | bitwiseOr (r r' : Nat) (len : Int)
  | bitwiseXor (r r' : Nat) (len : Int)
  | bitwiseNot (r : Nat)
  | union (r r' : Nat)
  | intersection (r r' : Nat)
  | complement (r : Nat)
  | set (r : Nat) (i : Int) (x : Bool)
  | copy' (src : Nat) (si : Int) (len : Option Int) (into : Nat) (dst : Int)
  | mapInPlace (f : Bool → Except Raised Bool) (r : Nat)
  | keyedMapInPlace' (f : Int → Bool → Except Raised Bool) (r : Nat) (sbit : Int) (l : Option Int)

def ref (store : Store) (r : Nat) : Except Raised BoolVector :=
  match store[r]? with
  | some v => .ok v
  | none => .error .subscript

def new (store : Store) (result : Except Raised BoolVector) : Store :=
  match result with
  | .ok v => store ++ [v]
  | .error _ => store

/-- The vector has what was written, also when an exception was raised. -/
def change (store : Store) (r : Nat) (write : BoolVector → Write Unit) : Store :=
  match store[r]? with
  | some v => store.set r ⟨v.nbits, (outcome (write v) v.bits).2⟩
  | none => store

def step (store : Store) : Op → Store
  | .makeRwVector len init => new store (makeRwVector len init)
  | .fromString s => new store (fromString s)
  | .bits len l => new store (bits len l)
  | .fromList l => new store (fromList l)
  | .fromFn len genf => new store (fromFn len genf)
  | .mkCopy r => new store do mkCopy (← ref store r)
  | .extend0 r n => new store do extend0 (← ref store r) n
  | .extend1 r n => new store do extend1 (← ref store r) n
  | .lshift r shft => new store do lshift (← ref store r) shft
  | .append r r' => new store do append (← ref store r) (← ref store r')
  | .cat rs => new store do cat (← rs.mapM (ref store))
  | .slice r sbit len => new store do slice (← ref store r) sbit len
  | .extract r sbit len => new store do extract (← ref store r) sbit len
  | .rshift r shft => new store do rshift (← ref store r) shft
  | .bitwiseAnd r r' len => new store do bitwiseAnd (← ref store r) (← ref store r') len
  | .bitwiseOr r r' len => new store do bitwiseOr (← ref store r) (← ref store r') len
  | .bitwiseXor r r' len => new store do bitwiseXor (← ref store r) (← ref store r') len
  | .bitwiseNot r => new store do bitwiseNot (← ref store r)
  | .union r r' => change store r fun v => do union v (← ref store r')
  | .intersection r r' => change store r fun v => do intersection v (← ref store r')
  | .complement r => change store r complement
  | .set r i x => change store r fun v => set v.nbits i x
  | .copy' src si len into dst => change store into fun v => do
      let fromVector ← ref store src
      let bitOfFrom : Int → Write Bool :=
        if src = into then bitOfTarget v.nbits else fun i => liftM (bitOf fromVector i)
      copy' fromVector.nbits bitOfFrom si len v.nbits dst
  | .mapInPlace f r => change store r (mapInPlace f)
  | .keyedMapInPlace' f r sbit l => change store r fun v => keyedMapInPlace' f v.nbits sbit l

def run (ops : List Op) : Store := ops.foldl step []

/-- No bit of the list given to `bits` lies in the padding of the last byte, or else the call raises
for another one. -/
def Op.InRange : Op → Prop
  | .bits len l => (∃ i ∈ l, i < 0 ∨ 8 * sizeOf len ≤ i) ∨ ∀ i ∈ l, i < len
  | _ => True

def storageBit (v : BoolVector) (i : Nat) : Bool :=
  match v.bits[i / 8]? with
  | some byte => byte.getLsbD (i % 8)
  | none => false

def AllValid (store : Store) : Prop := ∀ v ∈ store, v.Valid

section Step

variable {store : Store} {v : BoolVector}

theorem valid_ref (valid : AllValid store) {r : Nat} (result : ref store r = .ok v) : v.Valid := by
  unfold ref at result
  split at result
  · next found =>
      cases result
      exact valid v (List.mem_of_getElem? found)
  · cases result

theorem allValid_new (valid : AllValid store) {result : Except Raised BoolVector}
    (made : ∀ v, result = .ok v → v.Valid) : AllValid (new store result) := by
  unfold new
  split
  · next v =>
      intro w mem
      cases List.mem_append.mp mem with
      | inl old => exact valid w old
      | inr last =>
        rw [List.mem_singleton.mp last]
        exact made v rfl
  · exact valid

theorem allValid_new_ref (valid : AllValid store) (r : Nat)
    {f : BoolVector → Except Raised BoolVector}
    (made : ∀ ba v, ba.Valid → f ba = .ok v → v.Valid) :
    AllValid (new store do f (← ref store r)) := by
  apply allValid_new valid
  intro v result
  obtain ⟨ba, found, result⟩ := bind_eq_ok.mp result
  exact made ba v (valid_ref valid found) result

theorem allValid_new_ref2 (valid : AllValid store) (r r' : Nat)
    {f : BoolVector → BoolVector → Except Raised BoolVector}
    (made : ∀ ba ba' v, ba.Valid → ba'.Valid → f ba ba' = .ok v → v.Valid) :
    AllValid (new store do f (← ref store r) (← ref store r')) := by
  apply allValid_new_ref valid r (f := fun ba => do f ba (← ref store r'))
  intro ba v validBa result
  obtain ⟨ba', found, result⟩ := bind_eq_ok.mp result
  exact made ba ba' v validBa (valid_ref valid found) result

theorem allValid_change (valid : AllValid store) (r : Nat) {write : BoolVector → Write Unit}
    (keeps : ∀ v, v.Valid → Keeps v.nbits v.bits.length (write v)) :
    AllValid (change store r write) := by
  unfold change
  split
  · next v found =>
      have validV := valid v (List.mem_of_getElem? found)
      intro w mem
      cases List.mem_or_eq_of_mem_set mem with
      | inl old => exact valid w old
      | inr changed =>
        rw [changed]
        exact valid_of_clear validV.whole ((keeps v validV).of_outcome validV.clear)
  · exact valid

theorem keeps_ref {n : Int} {size : Nat} {r : Nat} {f : BoolVector → Write Unit}
    (keeps : ∀ v, Keeps n size (f v)) :
    Keeps n size (do f (← ref store r)) := Triple.lift_bind (fun _ _ _ => id) fun v _ => keeps v

theorem valid_mapM_ref (valid : AllValid store) {rs : List Nat} {l : List BoolVector}
    (result : rs.mapM (ref store) = .ok l) : ∀ v ∈ l, v.Valid := by
  induction rs generalizing l with
  | nil =>
    cases result
    intro v mem
    cases mem
  | cons r rs ih =>
    rw [List.mapM_cons] at result
    obtain ⟨ba, found, result⟩ := bind_eq_ok.mp result
    obtain ⟨l', rest, rfl⟩ := bind_pure_eq_ok.mp result
    intro v mem
    cases List.mem_cons.mp mem with
    | inl first =>
      rw [first]
      exact valid_ref valid found
    | inr later => exact ih rest v later

theorem initBits_outside {l : List Int} {size : Nat}
    (outside : ∃ i ∈ l, i < 0 ∨ 8 * (size : Int) ≤ i) :
    Triple (Clear (8 * size) size) (initBits l) (fun _ _ => False) fun _ => True := by
  induction l with
  | nil =>
    obtain ⟨i, mem, -⟩ := outside
    cases mem
  | cons i l ih =>
    by_cases here : i < 0 ∨ 8 * (size : Int) ≤ i
    · have absent : Triple (Clear (8 * size) size) (fetch (byteOf i)) (fun _ _ => False)
          fun _ => True := by
        intro bytes clear
        have read : outcome (fetch (byteOf i)) bytes = (checkSub bytes (byteOf i), bytes) := rfl
        rw [read]
        cases found : checkSub bytes (byteOf i) with
        | error e => trivial
        | ok b =>
          obtain ⟨nonneg, at_i⟩ := range_of_checkSub found
          have lt := (List.getElem?_eq_some_iff.mp at_i).1
          rw [clear.length] at lt
          unfold byteOf at nonneg lt
          omega
      have first : Triple (Clear (8 * size) size) (initBit i) (fun _ _ => False) fun _ => True :=
        absent.bind fun b s impossible => impossible.elim
      exact first.bind fun _ s impossible => impossible.elim
    · obtain ⟨i', mem, out⟩ := outside
      have later : i' ∈ l := by
        cases List.mem_cons.mp mem with
        | inl same =>
          rw [same] at out
          exact (here out).elim
        | inr later => exact later
      have inside : i < 8 * (size : Int) := not_le.mp fun le => here (.inr le)
      exact Triple.bind (keeps_initBit inside).leaves fun _ => ih ⟨i', later, out⟩

theorem valid_bits_inRange {len : Int} {l : List Int} (inRange : (Op.bits len l).InRange)
    (result : bits len l = .ok v) : v.Valid := by
  cases inRange with
  | inl outside =>
    obtain ⟨-, size, whole, written⟩ := build_ok result
    rw [← whole] at outside
    obtain ⟨-, impossible⟩ := (initBits_outside outside).of_final
      (clear_of_length List.length_replicate) written
    exact impossible.elim
  | inr below => exact valid_bits below result

theorem allValid_step (valid : AllValid store) {op : Op} (inRange : op.InRange) :
    AllValid (step store op) := by
  cases op with
  | makeRwVector len init => exact allValid_new valid fun v => valid_makeRwVector
  | fromString s => exact allValid_new valid fun v => valid_fromString
  | bits len l => exact allValid_new valid fun v => valid_bits_inRange inRange
  | fromList l => exact allValid_new valid fun v => valid_fromList
  | fromFn len genf => exact allValid_new valid fun v => valid_fromFn
  | mkCopy r => exact allValid_new_ref valid r fun _ _ => valid_mkCopy
  | extend0 r n => exact allValid_new_ref valid r fun _ _ => valid_extend0
  | extend1 r n => exact allValid_new_ref valid r fun _ _ => valid_extend1
  | lshift r shft => exact allValid_new_ref valid r fun _ _ => valid_lshift
  | append r r' => exact allValid_new_ref2 valid r r' fun _ _ _ => valid_append
  | cat rs =>
    apply allValid_new valid
    intro v result
    obtain ⟨l, found, result⟩ := bind_eq_ok.mp result
    exact valid_cat (valid_mapM_ref valid found) result
  | slice r sbit len => exact allValid_new_ref valid r fun _ _ _ => valid_slice
  | extract r sbit len => exact allValid_new_ref valid r fun _ _ _ => valid_extract
  | rshift r shft => exact allValid_new_ref valid r fun _ _ => valid_rshift
  | bitwiseAnd r r' len => exact allValid_new_ref2 valid r r' fun _ _ _ _ _ => valid_bitwiseAnd
  | bitwiseOr r r' len => exact allValid_new_ref2 valid r r' fun _ _ _ _ _ => valid_orBlend
  | bitwiseXor r r' len => exact allValid_new_ref2 valid r r' fun _ _ _ _ _ => valid_orBlend
  | bitwiseNot r => exact allValid_new_ref valid r fun _ _ _ => valid_bitwiseNot
  | union r r' => exact allValid_change valid r fun v validV => keeps_ref (keeps_union validV)
  | intersection r r' =>
    exact allValid_change valid r fun v validV => keeps_ref (keeps_intersection validV)
  | complement r => exact allValid_change valid r fun v validV => keeps_flip validV.whole v.bits
  | set r i x => exact allValid_change valid r fun v _ => keeps_set v.nbits i x _
  | copy' src si len into dst =>
    apply allValid_change valid into
    intro v _
    apply keeps_ref
    intro fromVector
    apply keeps_copy'
    intro i
    split
    · exact reads_bitOfTarget _ _
    · exact reads_bitOf _ _
  | mapInPlace f r => exact allValid_change valid r fun v _ => keeps_mapInPlace f v
  | keyedMapInPlace' f r sbit l =>
    exact allValid_change valid r fun v _ => keeps_keyedMapInPlace' f v.nbits sbit l _

theorem allValid_run {ops : List Op} (inRange : ∀ op ∈ ops, op.InRange) : AllValid (run ops) := by
  have from_store (ops : List Op) (inRange : ∀ op ∈ ops, op.InRange) {store : Store}
      (valid : AllValid store) : AllValid (ops.foldl step store) := by
    induction ops generalizing store with
    | nil => exact valid
    | cons op ops ih =>
      exact ih (fun op' mem => inRange op' (List.mem_cons_of_mem _ mem))
        (allValid_step valid (inRange op (List.mem_cons_self ..)))
  exact from_store ops inRange fun v mem => by cases mem

end Step

theorem and_bit (byte : Byte) {i : Int} (k : Nat) (at_k : (k : Int) = i % 8) :
    (byte &&& bit i ≠ 0) ↔ byte.getLsbD k = true := by
  have lt : k < 8 := by omega
  have shift : bit i = (1 : Byte) <<< k := by
    unfold bit wmask7
    rw [← at_k, Int.toNat_natCast]
  rw [shift]
  constructor
  · intro nonzero
    by_contra clear
    apply nonzero
    apply BitVec.eq_of_getLsbD_eq
    intro j ltj
    rw [BitVec.getLsbD_and, one_shiftLeft_bits (Nat.le_of_lt lt) ltj]
    by_cases same : j = k
    · rw [same, Bool.eq_false_of_not_eq_true clear, Bool.false_and]
      exact BitVec.getLsbD_zero.symm
    · rw [decide_eq_false same, Bool.and_false]
      exact BitVec.getLsbD_zero.symm
  · intro set zero
    have bitSet : (byte &&& (1 : Byte) <<< k).getLsbD k = true := by
      rw [BitVec.getLsbD_and, one_shiftLeft_bits (Nat.le_of_lt lt) lt, set]
      exact decide_eq_true rfl
    rw [zero] at bitSet
    cases bitSet.symm.trans BitVec.getLsbD_zero

variable {v : BoolVector}

theorem bitOf_eq {j k : Nat} {byte : Byte} (found : v.bits[j]? = some byte)
    (lt : k < 8) (inside : 8 * (j : Int) + k < v.nbits) :
    bitOf v (8 * j + k) = .ok (byte.getLsbD k) := by
  have index : byteOf (8 * (j : Int) + k) = j := by
    unfold byteOf
    omega
  have sub : checkSub v.bits j = .ok byte := by
    unfold checkSub
    rw [if_neg (not_lt.mpr (Int.natCast_nonneg j)), Int.toNat_natCast, found]
  have test : decide (byte &&& bit (8 * j + k) ≠ 0) = byte.getLsbD k := by
    rw [Bool.eq_iff_iff, decide_eq_true_iff]
    exact and_bit byte k (by omega)
  unfold bitOf
  rw [if_neg (not_le.mpr inside), index, sub]
  exact congrArg Except.ok test

theorem eq_of_bits {w : BoolVector} (validV : v.Valid) (validW : w.Valid)
    (nbits : v.nbits = w.nbits) (same : ∀ i, bitOf v i = bitOf w i) : v = w := by
  have length : v.bits.length = w.bits.length := by
    have := validV.whole.trans ((congrArg sizeOf nbits).trans validW.whole.symm)
    exact_mod_cast this
  have bits : v.bits = w.bits := by
    apply List.ext_getElem length
    intro j ltV ltW
    have foundV := List.getElem?_eq_getElem ltV
    have foundW := List.getElem?_eq_getElem ltW
    apply BitVec.eq_of_getLsbD_eq
    intro k lt
    cases lt_or_ge (8 * (j : Int) + k) v.nbits with
    | inl inside =>
      have equal := same (8 * j + k)
      rw [bitOf_eq foundV lt inside, bitOf_eq foundW lt (nbits ▸ inside)] at equal
      exact Except.ok.inj equal
    | inr past =>
      rw [validV.clear.fits j _ foundV k lt past, validW.clear.fits j _ foundW k lt (nbits ▸ past)]
  cases v
  cases w
  cases nbits
  cases bits
  rfl

theorem compareFrom_iff {rest rest' : Bytes} (length : rest.length = rest'.length) :
    compareFrom rest rest' = true ↔ rest = rest' := by
  induction rest generalizing rest' with
  | nil =>
    obtain rfl := List.length_eq_zero_iff.mp length.symm
    exact ⟨fun _ => rfl, fun _ => rfl⟩
  | cons b rest ih =>
    cases rest' with
    | nil => cases length
    | cons b' rest' =>
      rw [compareFrom, Bool.and_eq_true, beq_iff_eq, ih (Nat.succ.inj length), List.cons.injEq]

theorem equal_iff {w : BoolVector} (validV : v.Valid) (validW : w.Valid) :
    equal v w = true ↔ v.nbits = w.nbits ∧ ∀ i, bitOf v i = bitOf w i := by
  unfold equal
  rw [Bool.and_eq_true, beq_iff_eq]
  constructor
  · intro ⟨nbits, stored⟩
    have length : v.bits.length = w.bits.length := by
      have := validV.whole.trans ((congrArg sizeOf nbits).trans validW.whole.symm)
      exact_mod_cast this
    unfold eqBits order at stored
    rw [if_pos (le_of_eq nbits.symm)] at stored
    have bits := (compareFrom_iff length).mp stored
    refine ⟨nbits, fun i => ?_⟩
    unfold bitOf
    rw [nbits, bits]
  · intro ⟨nbits, same⟩
    obtain rfl := eq_of_bits validV validW nbits same
    refine ⟨rfl, ?_⟩
    unfold eqBits order
    rw [if_pos (le_refl _)]
    exact (compareFrom_iff rfl).mpr rfl

theorem storageBit_past (valid : v.Valid) {i : Nat} (past : v.nbits ≤ i) :
    storageBit v i = false := by
  unfold storageBit
  split
  · next byte found =>
      apply valid.clear.fits _ _ found _ (Nat.mod_lt i (by decide))
      have whole : 8 * (i / 8) + i % 8 = i := Nat.div_add_mod i 8
      exact_mod_cast whole ▸ past
  · rfl

/-- In every run that keeps `bits` away from the padding, the padding of every vector is zero;
comparing, printing and listing vectors see their bits and nothing else. -/
theorem padding_zero {ops : List Op} (inRange : ∀ op ∈ ops, op.InRange) {v w : BoolVector}
    (memV : v ∈ run ops) (memW : w ∈ run ops) : (∀ i : Nat, v.nbits ≤ i → storageBit v i = false) ∧
    (equal v w = true ↔ v.nbits = w.nbits ∧ ∀ i, bitOf v i = bitOf w i) ∧
    (v.nbits = w.nbits → (∀ i, bitOf v i = bitOf w i) →
      toString v = toString w ∧ getBits v = getBits w ∧ ∀ u, eqBits v u = eqBits w u) := by
  have valid := allValid_run inRange
  refine ⟨fun i => storageBit_past (valid v memV), equal_iff (valid v memV) (valid w memW), ?_⟩
  intro nbits same
  obtain rfl := eq_of_bits (valid v memV) (valid w memW) nbits same
  exact ⟨rfl, rfl, fun _ => rfl⟩

theorem padding_zero_copy : (∀ i : Nat, (5 : Int) ≤ i → storageBit ⟨5, [0x10]⟩ i = false) ∧
    (equal ⟨5, [0x10]⟩ ⟨5, [0x10]⟩ = true ↔
      (5 : Int) = 5 ∧ ∀ i, bitOf ⟨5, [0x10]⟩ i = bitOf ⟨5, [0x10]⟩ i) := by
  have inRange : ∀ op ∈ [Op.bits 5 [4], .mkCopy 0], op.InRange := by
    intro op mem
    simp only [List.mem_cons, List.not_mem_nil, or_false] at mem
    rcases mem with rfl | rfl
    · right
      decide
    · trivial
  have made : run [.bits 5 [4], .mkCopy 0] = [⟨5, [0x10]⟩, ⟨5, [0x10]⟩] := by rfl
  have mem : (⟨5, [0x10]⟩ : BoolVector) ∈ run [.bits 5 [4], .mkCopy 0] := by
    rw [made]
    exact List.mem_cons_self ..
  obtain ⟨padding, same, -⟩ := padding_zero inRange mem mem
  exact ⟨padding, same⟩

/-- The vector of the five bits 0 to 4, told to set bit 7, has that bit in its last byte. It has the
bits of the vector with no bit set, but is not equal to it and is printed as `80`. -/
theorem bit_in_padding :
    ¬ (∀ ops : List Op, ∀ v ∈ run ops, ∀ i : Nat, v.nbits ≤ i → storageBit v i = false) ∧
    bits 5 [7] = .ok ⟨5, [0x80]⟩ ∧ bits 5 [] = .ok ⟨5, [0x00]⟩ ∧
    equal ⟨5, [0x80]⟩ ⟨5, [0x00]⟩ = false ∧
    toString ⟨5, [0x80]⟩ = .ok [0x38, 0x30] ∧ toString ⟨5, [0x00]⟩ = .ok [0x30, 0x30] := by
  refine ⟨?_, by rfl, by rfl, by rfl, by rfl, by rfl⟩
  intro claim
  have made : run [.bits 5 [7]] = [⟨5, [0x80]⟩] := by rfl
  have mem : (⟨5, [0x80]⟩ : BoolVector) ∈ run [.bits 5 [7]] := by
    rw [made]
    exact List.mem_cons_self ..
  cases claim _ _ mem 7 (by decide)

end Mythryl.RwBoolVector
