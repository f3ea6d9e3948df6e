import Mythryl.RwBoolVector.Blends

/-!
# Maps over the bits

`keyed_map_in_place` replaces every bit by its image, and so does a new vector that is built from
the images; `map_in_place` clears every bit, since it collects the images from a byte that is zero.
-/

namespace Mythryl.RwBoolVector
open RaisingState

theorem bit_natCast_bits (i : Nat) {k : Nat} (lt : k < 8) :
    (bit i).getLsbD k = decide (k = i % 8) := by
  unfold bit
  rw [wmask7_natCast]
  exact one_shiftLeft_bits (Nat.mod_lt i (by decide)).le lt

theorem and_bit_natCast (byte : Byte) (i : Nat) :
    decide (byte &&& bit i ≠ 0) = byte.getLsbD (i % 8) :=
  Bool.eq_iff_iff.mpr (by simpa using and_bit byte (i % 8) (by omega))

theorem changeBit_writes {bytes : Bytes} {i : Nat} (lt : i / 8 < bytes.length) (b' : Bool) :
    Writes (changeBit (i / 8 : Nat) bytes[i / 8] (bit i) (bytes[i / 8].getLsbD (i % 8)) b')
      bytes i (i + 1) fun _ => b' := by
  have here : 8 * (i / 8) + i % 8 = i := Nat.div_add_mod i 8
  have small : i % 8 < 8 := Nat.mod_lt i (by decide)
  have stores {b : Byte}
      (bits : ∀ k < 8, b.getLsbD k = if k = i % 8 then b' else bytes[i / 8].getLsbD k) :
      Writes (store (i / 8 : Nat) b) bytes i (i + 1) fun _ => b' := by
    have part := writes_part (fun _ => b') (a := i % 8) (c := i % 8 + 1) lt (by omega) (b := b)
      fun k lt => by
        rw [bits k lt]
        split <;> split <;> first | rfl | omega
    rwa [← Nat.add_assoc, here] at part
  unfold changeBit
  split
  · next same =>
      refine ⟨bytes, rfl, rfl, fun p => ?_⟩
      split
      · next within =>
          obtain rfl : p = i := by omega
          rw [← same, ← bitAt_eq_getElem lt small, here]
      · rfl
  · split
    · next yes =>
        apply stores
        intro k lt
        rw [BitVec.getLsbD_or, bit_natCast_bits i lt]
        split <;> simp_all
    · next no =>
        apply stores
        intro k lt
        rw [BitVec.getLsbD_and, not_bits _ lt, bit_natCast_bits i lt]
        split <;> simp_all

theorem keyedMapLoop_writes (f : Nat → Bool → Bool) (n i : Nat) (bytes : Bytes)
    (room : i + n ≤ 8 * bytes.length) :
    Writes (keyedMapLoop (fun i b => .ok (f i.toNat b)) n i) bytes i (i + n)
      fun p => f p (bitAt bytes p) := by
  induction n generalizing i bytes with
  | zero => exact .nothing bytes i _
  | succ n ih =>
    have inside : i / 8 < bytes.length := by omega
    unfold keyedMapLoop
    rw [byteOf_natCast]
    apply Writes.after (outcome_fetch inside)
    rw [and_bit_natCast]
    have same : bytes[i / 8].getLsbD (i % 8) = bitAt bytes i := by
      rw [← bitAt_eq_getElem inside (Nat.mod_lt i (by decide)), Nat.div_add_mod]
    have changed := changeBit_writes inside (f i (bitAt bytes i))
    rw [same] at changed ⊢
    have changed' : Writes _ bytes i (i + 1) fun p => f p (bitAt bytes p) :=
      changed.congr fun p ge lt => by
        obtain rfl : p = i := by omega
        rfl
    refine changed'.onward (fun bytes' length later => ?_) (Nat.le_succ i) (by omega)
    have rest := ih (i + 1) bytes' (by omega)
    rw [Nat.add_right_comm, Nat.add_assoc] at rest
    exact rest.congr fun p ge _ => by rw [later p ge]

variable {v : BoolVector}

theorem keyedMap_becomes (sized : v.Sized) (f : Bool → Bool) :
    Becomes (keyedMapInPlace' (fun _ b => .ok (f b)) v.nbits 0 none) v
      fun p => f (bitAt v.bits p) := by
  have enough := sized.enough
  have nonneg := sized.nonneg
  apply becomes_of_bits sized
  unfold keyedMapInPlace'
  split
  · exact ⟨v.bits, rfl, rfl, fun p lt => by omega⟩
  · obtain ⟨bytes, run, length, bits⟩ :=
      keyedMapLoop_writes (fun _ => f) v.nbits.toNat 0 v.bits (by omega)
    have whole : valid v.nbits 0 none = .ok v.nbits := by
      unfold valid
      rw [if_neg (by omega), Int.sub_zero]
    rw [whole]
    refine ⟨bytes, run, length, fun p lt => ?_⟩
    rw [bits p, if_pos (by omega)]

theorem mapBits_ok (f : Bool → Bool) (n : Nat) (byte mask : Byte) :
    mapBits (fun b => .ok (f b)) n byte 0 mask = .ok 0 := by
  induction n generalizing mask with
  | zero => rfl
  | succ n ih =>
    have zero : (0 : Byte) &&& mask = 0 := BitVec.zero_and
    unfold mapBits
    simp only [bind, Except.bind, zero, ih, ite_self]

theorem mapBytes_writes {f' : Int → Byte → Except Raised Byte}
    (zero : ∀ i byte, f' i byte = .ok 0) (rest : Bytes) (i : Nat) (bytes : Bytes)
    (room : i + rest.length ≤ bytes.length) :
    Writes (mapBytes f' rest i) bytes (8 * i) (8 * (i + rest.length)) fun _ => false := by
  induction rest generalizing i bytes with
  | nil => exact .nothing bytes _ _
  | cons b rest ih =>
    simp only [List.length_cons] at room
    unfold mapBytes
    rw [zero]
    have written := writes_store (fun _ => false) (show i < bytes.length by omega) (b := 0)
      fun _ _ => BitVec.getLsbD_zero
    refine written.next (fun bytes' length => ?_) (by omega) (by simp only [List.length_cons]; omega)
    have later := ih (i + 1) bytes' (by omega)
    rw [Nat.add_right_comm] at later
    exact later

theorem mapInPlace_clears (sized : v.Sized) (f : Bool → Bool) :
    Becomes (mapInPlace (fun b => .ok (f b)) v) v fun _ => false := by
  have enough := sized.enough
  apply becomes_of_bits sized
  unfold mapInPlace
  split
  · exact ⟨v.bits, rfl, rfl, fun p lt => by omega⟩
  · have zero (i : Int) (byte : Byte) : (if i < byteOf (v.nbits - 1)
        then mapBits (fun b => .ok (f b)) 8 byte 0 1
        else mapBits (fun b => .ok (f b)) (wmask7 (v.nbits - 1) + 1) byte 0 1) = .ok 0 := by
      rw [mapBits_ok, mapBits_ok, ite_self]
    obtain ⟨bytes, run, length, bits⟩ := mapBytes_writes zero v.bits 0 v.bits (by omega)
    refine ⟨bytes, run, length, fun p lt => ?_⟩
    rw [bits p, if_pos (by omega)]

section FromFn

variable {n : Nat} {genf : Int → Except Raised Bool} {g : Nat → Bool}

theorem getbyteFn_step {len count : Int} {bit b : Byte} {x : Bool} (more : bit ≠ 0)
    (ne : count ≠ len) (gen : genf count = .ok x) (lt : count < maximumInt) :
    getbyteFn len genf count bit b =
      getbyteFn len genf (count + 1) (bit <<< 1) (if x then b ||| bit else b) := by
  rw [getbyteFn, if_neg more, if_neg ne, gen]
  refine (if_pos lt).trans ?_
  cases x
  · exact if_neg Bool.false_ne_true
  · exact if_pos rfl

theorem getbyteFn_bits (gen : ∀ p : Nat, p < n → genf p = .ok (g p)) (small : ∀ p < n, ((p : Nat) : Int) < maximumInt)
    (d : Nat) {j : Nat} (le : j ≤ 8) (within : 8 * d + j ≤ n) {b : Byte}
    (clear : ∀ k < 8, j ≤ k → b.getLsbD k = false) :
    ∃ byte, getbyteFn n genf (8 * d + j : Nat) ((1 : Byte) <<< j) b
        = .ok ((min (8 * d + 8) n : Nat), byte) ∧
      ∀ k < 8, byte.getLsbD k = if j ≤ k then decide (8 * d + k < n) && g (8 * d + k)
        else b.getLsbD k := by
  induction left : 8 - j generalizing j b with
  | zero =>
    obtain rfl : j = 8 := by omega
    unfold getbyteFn
    rw [if_pos ((one_shiftLeft_eq_zero le).mpr rfl), Nat.min_eq_left within]
    exact ⟨b, rfl, fun k lt => by rw [if_neg (by omega)]⟩
  | succ left' ih =>
    have more : (1 : Byte) <<< j ≠ 0 := fun zero =>
      absurd ((one_shiftLeft_eq_zero le).mp zero) (by omega)
    by_cases last : 8 * d + j = n
    · unfold getbyteFn
      rw [if_neg more, if_pos (by exact_mod_cast last), Nat.min_eq_right (by omega), last]
      refine ⟨b, rfl, fun k lt => ?_⟩
      split
      · next ge => rw [clear k lt ge, decide_eq_false (by omega), Bool.false_and]
      · rfl
    · have lt : 8 * d + j < n := Nat.lt_of_le_of_ne within last
      have next : ((1 : Byte) <<< j) <<< 1 = (1 : Byte) <<< (j + 1) := by
        rw [← BitVec.shiftLeft_add]
      have count : ((8 * d + j : Nat) : Int) + 1 = (8 * d + (j + 1) : Nat) := by
        push_cast
        rw [add_assoc]
      have bits (k : Nat) (small : k < 8) :
          (if g (8 * d + j) then b ||| (1 : Byte) <<< j else b).getLsbD k =
            if k = j then g (8 * d + j) else b.getLsbD k := by
        split
        · next yes =>
            rw [BitVec.getLsbD_or, one_shiftLeft_bits le small]
            split <;> simp_all
        · next no =>
            split
            · rw [Bool.eq_false_of_not_eq_true no, clear k small (by omega)]
            · rfl
      rw [getbyteFn_step more (by exact_mod_cast last) (gen _ lt) (small _ lt), next, count]
      obtain ⟨byte, result, read⟩ := ih (j := j + 1) (by omega) (by omega)
        (fun k lt ge => by rw [bits k lt, if_neg (by omega), clear k lt (by omega)]) (by omega)
      refine ⟨byte, result, fun k lt => ?_⟩
      rw [read k lt, bits k lt]
      by_cases same : k = j
      · rw [if_neg (by omega), if_pos same, if_pos (by omega), same, decide_eq_true (by omega),
          Bool.true_and]
      · rw [if_neg same]
        congr 1
        simp only [eq_iff_iff]
        omega

theorem storeNonzero_writes {bytes : Bytes} {d : Nat} (lt : d < bytes.length)
    (zeros : ∀ p, 8 * d ≤ p → bitAt bytes p = false) (byte : Byte) :
    Writes (storeNonzero d byte) bytes (8 * d) (8 * d + 8) fun p => byte.getLsbD (p - 8 * d) := by
  unfold storeNonzero
  split
  · apply writes_store _ lt
    intro k _
    rw [Nat.add_sub_cancel_left]
  · next zero =>
      obtain rfl := not_not.mp zero
      refine ⟨bytes, rfl, rfl, fun p => ?_⟩
      split
      · next within => exact (zeros p within.1).trans BitVec.getLsbD_zero.symm
      · rfl

theorem fillFn_fills (gen : ∀ p : Nat, p < n → genf p = .ok (g p)) (small : ∀ p < n, ((p : Nat) : Int) < maximumInt)
    (d : Nat) {bytes : Bytes} (room : n ≤ 8 * bytes.length)
    (zeros : ∀ p, 8 * d ≤ p → bitAt bytes p = false) :
    ∃ bytes', outcome (fillFn n genf (min (8 * d) n : Nat) d) bytes = (.ok (), bytes') ∧
      bytes'.length = bytes.length ∧
      ∀ p, bitAt bytes' p = if 8 * d ≤ p ∧ p < n then g p else bitAt bytes p := by
  induction left : n - 8 * d using Nat.strong_induction_on generalizing d bytes with
  | _ left ih =>
    unfold fillFn
    by_cases last : n ≤ 8 * d
    · rw [Nat.min_eq_right last, dif_neg (by simp)]
      exact ⟨bytes, rfl, rfl, fun p => by rw [if_neg (by omega)]⟩
    · obtain ⟨byte, result, read⟩ := getbyteFn_bits gen small d (Nat.zero_le 8) (by omega)
        (b := 0) fun _ _ _ => BitVec.getLsbD_zero
      obtain ⟨bytes', run, length, bits⟩ := storeNonzero_writes (show d < bytes.length by omega)
        zeros byte
      obtain ⟨bytes'', run', length', bits'⟩ := ih (n - 8 * (d + 1)) (by omega) (d + 1)
        (show n ≤ 8 * bytes'.length by omega) (fun p ge => by
          rw [bits p, if_neg (by omega), zeros p (by omega)]) rfl
      refine ⟨bytes'', ?_, length'.trans length, fun p => ?_⟩
      · rw [Nat.min_eq_left (by omega), dif_pos (by omega)]
        split
        · next e failed =>
            cases failed.symm.trans result
        · next count' byte' returned =>
            cases returned.symm.trans result
            exact (outcome_bind_ok run).trans run'
      · rw [bits' p, bits p]
        by_cases later : 8 * (d + 1) ≤ p ∧ p < n
        · rw [if_pos later, if_pos (by omega)]
        · rw [if_neg later]
          by_cases here : 8 * d ≤ p ∧ p < 8 * d + 8
          · dsimp only
            rw [if_pos here, read _ (by omega), if_pos (Nat.zero_le _), Nat.add_sub_cancel' here.1]
            by_cases lt : p < n
            · rw [if_pos ⟨here.1, lt⟩, decide_eq_true lt, Bool.true_and]
            · rw [if_neg (by omega), decide_eq_false lt, Bool.false_and, zeros p here.1]
          · rw [if_neg here, if_neg (by omega)]

theorem fromFn_makes (gen : ∀ p : Nat, p < n → genf p = .ok (g p)) :
    Makes (fromFn n genf) n fun p => .ok (g p) := by
  intro allowed
  have bounds := sizeOf_bounds n
  have small (p : Nat) (lt : p < n) : (p : Int) < maximumInt := by
    unfold maximumVectorLength at allowed
    unfold maximumInt
    omega
  unfold fromFn
  rw [build_eq_buildOn]
  refine Fills.buildOn (fun bytes room _ zeros => ?_) allowed
  obtain ⟨bytes', run, length, bits⟩ := fillFn_fills gen small 0 room fun p _ => zeros p
  refine ⟨bytes', run, length, fun p lt => ?_⟩
  rw [bits p, if_pos (by omega)]

end FromFn

/-- Every bit is replaced by its image: by `map_in_place`, by `keyed_map_in_place` with a function
that does not look at the index, and in a new vector. -/
structure Maps (f : Bool → Bool) (v : BoolVector) : Prop where
  inPlace : Becomes (mapInPlace (fun b => .ok (f b)) v) v fun p => f (bitAt v.bits p)
  keyed : Becomes (keyedMapInPlace' (fun _ b => .ok (f b)) v.nbits 0 none) v
    fun p => f (bitAt v.bits p)
  fresh : Makes (fromFn v.nbits fun i => f <$> bitOf v i) v.nbits
    fun p => .ok (f (bitAt v.bits p))

theorem fresh_makes (sized : v.Sized) (f : Bool → Bool) :
    Makes (fromFn v.nbits fun i => f <$> bitOf v i) v.nbits fun p => .ok (f (bitAt v.bits p)) := by
  rw [← sized.toNat]
  apply fromFn_makes
  intro p lt
  rw [bitOf_bitAt sized (by omega)]
  rfl

theorem maps_iff {v : BoolVector} (sized : v.Sized) (f : Bool → Bool) :
    Maps f v ↔ ∀ p : Nat, (p : Int) < v.nbits → f (bitAt v.bits p) = false := by
  have cleared := mapInPlace_clears sized f
  constructor
  · intro maps p lt
    exact maps.inPlace.agree cleared lt
  · intro no
    exact ⟨cleared.congr fun p lt => (no p lt).symm, keyedMap_becomes sized f, fresh_makes sized f⟩

theorem maps_iff_not : Maps Bool.not ⟨3, [0x07]⟩ ∧ (⟨3, [0x07]⟩ : BoolVector).Sized := by
  have sized : (⟨3, [0x07]⟩ : BoolVector).Sized := ⟨by decide, by decide, by decide⟩
  refine ⟨(maps_iff sized Bool.not).mpr fun p lt => ?_, sized⟩
  have small : p < 3 := Int.ofNat_lt.mp lt
  interval_cases p <;> rfl

theorem map_in_place_clears :
    ¬ (∀ (v : BoolVector) (f : Bool → Bool), v.Sized → Maps f v) ∧
    bits 1 [0] = .ok ⟨1, [0x01]⟩ ∧
    outcome (mapInPlace (fun b => .ok b) ⟨1, [0x01]⟩) [0x01] = (.ok (), [0x00]) ∧
    outcome (keyedMapInPlace' (fun _ b => .ok b) 1 0 none) [0x01] = (.ok (), [0x01]) := by
  have cleared : outcome (mapInPlace (fun b => .ok b) ⟨1, [0x01]⟩) [0x01] = (.ok (), [0x00]) := by rfl
  refine ⟨fun claim => ?_, by rfl, cleared, by rfl⟩
  obtain ⟨bytes, run, -, bits⟩ :=
    (claim ⟨1, [0x01]⟩ id ⟨by decide, by decide, by decide⟩).inPlace
  obtain rfl : [0x00] = bytes := congrArg Prod.snd (cleared.symm.trans run)
  cases bits 0 (by decide)

end Mythryl.RwBoolVector
