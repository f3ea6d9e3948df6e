import Mythryl.RwBoolVector.Clear

/-!
# Every operation keeps the bits past the end zero

All but one: `bits` sets whatever bit it is told to, also past the end.
-/

namespace Mythryl.RwBoolVector
open RaisingState

structure BoolVector.Valid (v : BoolVector) : Prop where
  whole : (v.bits.length : Int) = sizeOf v.nbits
  clear : Clear v.nbits v.bits.length v.bits

section Build

variable {n len : Int} {size : Nat} {write : Write Unit} {v : BoolVector}

theorem makeBytes_ok {b : Byte} {bytes : Bytes} (result : makeBytes len b = .ok bytes) :
    ∃ size : Nat, (size : Int) = len ∧ bytes = List.replicate size b := by
  unfold makeBytes at result
  split at result
  · cases result
  · next inside =>
      cases result
      exact ⟨len.toNat, Int.toNat_of_nonneg (by omega), rfl⟩

theorem makeRwVector_ok (result : makeRwVector len false = .ok v) :
    ∃ size : Nat, (size : Int) = sizeOf len ∧ v = ⟨len, List.replicate size 0⟩ := by
  unfold makeRwVector at result
  split at result
  · next zero =>
      cases result
      subst zero
      exact ⟨0, rfl, rfl⟩
  · obtain ⟨bytes, made, rfl⟩ := bind_pure_eq_ok.mp result
    obtain ⟨size, whole, rfl⟩ := makeBytes_ok made
    exact ⟨size, whole, rfl⟩

theorem valid_of_clear (whole : (size : Int) = sizeOf v.nbits) (clear : Clear v.nbits size v.bits) :
    v.Valid := by
  have length := clear.length
  subst length
  exact ⟨whole, clear⟩

theorem valid_of_final {initial : Bytes} {P : Bytes → Prop} {E : Bytes → Prop}
    (whole : (size : Int) = sizeOf v.nbits)
    (writes : Triple P write (fun _ => Clear v.nbits size) E) (start : P initial)
    (result : final write initial = .ok v.bits) : v.Valid := by
  obtain ⟨-, clear⟩ := writes.of_final start result
  exact valid_of_clear whole clear

theorem build_ok (result : build len write = .ok v) :
    v.nbits = len ∧ ∃ size : Nat, (size : Int) = sizeOf len ∧
      final write (List.replicate size 0) = .ok v.bits := by
  obtain ⟨bv, made, result⟩ := bind_eq_ok.mp result
  obtain ⟨size, whole, rfl⟩ := makeRwVector_ok made
  obtain ⟨bytes, written, rfl⟩ := bind_pure_eq_ok.mp result
  exact ⟨rfl, size, whole, written⟩

theorem buildOn_ok {b : Byte} (result : buildOn len b write = .ok v) :
    v.nbits = len ∧ ∃ size : Nat, (size : Int) = sizeOf len ∧
      final write (List.replicate size b) = .ok v.bits := by
  obtain ⟨bytes, made, result⟩ := bind_eq_ok.mp result
  obtain ⟨size, whole, rfl⟩ := makeBytes_ok made
  obtain ⟨bytes, written, rfl⟩ := bind_pure_eq_ok.mp result
  exact ⟨rfl, size, whole, written⟩

theorem valid_build (writes : ∀ size : Nat, (size : Int) = sizeOf len → Leaves len size write)
    (result : build len write = .ok v) : v.Valid := by
  obtain ⟨rfl, size, whole, written⟩ := build_ok result
  exact valid_of_final whole (writes size whole) (clear_zero _ size) written

theorem valid_buildOn (writes : ∀ size : Nat, (size : Int) = sizeOf len → Leaves len size write)
    (result : buildOn len 0 write = .ok v) : v.Valid := by
  obtain ⟨rfl, size, whole, written⟩ := buildOn_ok result
  exact valid_of_final whole (writes size whole) (clear_zero _ size) written

theorem valid_makeRwVector {init : Bool} (result : makeRwVector len init = .ok v) : v.Valid := by
  cases init with
  | false =>
    obtain ⟨size, whole, rfl⟩ := makeRwVector_ok result
    exact valid_of_clear whole (clear_zero len size)
  | true =>
    unfold makeRwVector at result
    split at result
    · cases result
      exact ⟨rfl, clear_nil 0 rfl⟩
    obtain ⟨bytes, made, result⟩ := bind_eq_ok.mp result
    obtain ⟨size, whole, rfl⟩ := makeBytes_ok made
    have length : (List.replicate size (0xff : Byte)).length = size := List.length_replicate
    split at result
    · next even =>
        cases result
        have full : 8 * (size : Int) ≤ len := by
          unfold sizeOf at whole
          omega
        exact valid_of_clear whole ((clear_of_length length).mono full)
    · next odd =>
        obtain ⟨m, mask, result⟩ := bind_eq_ok.mp result
        obtain ⟨bits', written, rfl⟩ := bind_pure_eq_ok.mp result
        unfold checkSet at written
        split at written
        · next inside =>
            cases written
            refine valid_of_clear whole (clear_set_last length whole (by rw [whole]) inside.1 ?_)
            intro k lt above
            rw [lobits_bits mask lt]
            unfold sizeOf at *
            exact decide_eq_false (by omega)
        · cases written

end Build

section New

variable {n : Int} {size : Nat} {i idx : Int} {v : BoolVector} {byte : Byte} {l : List Bool}
  {genf : Int → Except Raised Bool}

theorem fits_nibble {d b : Byte} (result : nibble d = .ok b) (le : 8 * i + 4 ≤ n) : Fits n i b := by
  have small : b.toNat < 2 ^ 4 := by
    unfold nibble at result
    split at result
    · cases result
      bv_omega
    · split at result
      · cases result
        bv_omega
      · split at result
        · cases result
          bv_omega
        · cases result
  intro k lt above
  have high : 2 ^ 4 ≤ 2 ^ k := Nat.pow_le_pow_right (by decide) (by omega)
  exact Nat.testBit_lt_two_pow (Nat.lt_of_lt_of_le small high)

theorem leaves_initNibbles (l : Bytes) (le : 8 * i + 4 * l.length ≤ n) :
    Leaves n size (initNibbles l i) := by
  fun_induction initNibbles l i with
  | case1 i => exact Triple.ret fun _ => id
  | case2 x i =>
    apply Leaves.lift_bind
    intro b result
    exact (keeps_store fun _ _ => fits_nibble result (by simpa using le)).leaves
  | case3 x1 x2 r i ih =>
    simp only [List.length_cons] at le
    apply Leaves.lift_bind
    intro high _
    apply Leaves.lift_bind
    intro low _
    apply Leaves.bind (keeps_store fun _ _ => fits_of_le (by omega) _).leaves
    intro _
    exact ih (by omega)

theorem valid_fromString {s : Bytes} (result : fromString s = .ok v) : v.Valid := by
  apply valid_build _ result
  intro size _
  apply leaves_initNibbles
  rw [List.length_reverse]
  omega

theorem keeps_initBit (lt : i < n) : Keeps n size (initBit i) := by
  apply (fetch_fits _).bind
  intro b
  apply Triple.of_fact
  intro fits
  exact keeps_store fun _ _ => fits.or (fits_bit lt)

theorem leaves_initBits {l : List Int} (below : ∀ i ∈ l, i < n) : Leaves n size (initBits l) := by
  induction l with
  | nil => exact Triple.ret fun _ => id
  | cons i l ih =>
    apply Leaves.bind (keeps_initBit (below i (List.mem_cons_self ..))).leaves
    intro _
    exact ih fun i' mem => below i' (List.mem_cons_of_mem _ mem)

theorem valid_bits {len : Int} {l : List Int} (below : ∀ i ∈ l, i < len)
    (result : bits len l = .ok v) : v.Valid :=
  valid_build (fun _ _ => leaves_initBits below) result

theorem fits_getbyte {l' : List Bool} {b : Byte} {j : Nat} (le : j ≤ 8)
    (total : 8 * i + j + l.length = n) (fits : Fits n i b)
    (result : getbyte l ((1 : Byte) <<< j) b = (l', byte)) :
    Fits n i byte ∧ (l' = [] ∨ 8 * (i + 1) + l'.length = n) := by
  induction l generalizing b j with
  | nil =>
    cases result
    exact ⟨fits, .inl rfl⟩
  | cons x r ih =>
    rw [List.length_cons] at total
    unfold getbyte at result
    split at result
    · next full =>
        cases result
        have last := (one_shiftLeft_eq_zero le).mp full
        refine ⟨fits, .inr ?_⟩
        rw [List.length_cons]
        omega
    · next more =>
        have lt := Nat.lt_of_le_of_ne le fun eq => more ((one_shiftLeft_eq_zero le).mpr eq)
        rw [← BitVec.shiftLeft_add] at result
        have total' : 8 * i + ((j + 1 : Nat) : Int) + r.length = n := by
          omega
        split at result
        · exact ih lt total' (fits.or (fits_one_shiftLeft le (by omega))) result
        · exact ih lt total' fits result

theorem leaves_storeNonzero
    (fits : 0 ≤ idx → idx < size → Fits n idx byte) : Leaves n size (storeNonzero idx byte) := by
  unfold storeNonzero
  split
  · exact (keeps_store fits).leaves
  · exact Triple.ret fun _ => id

theorem leaves_fill (total : l = [] ∨ 8 * idx + l.length = n) : Leaves n size (fill l idx) := by
  fun_induction fill l idx with
  | case1 idx => exact Triple.ret fun _ => id
  | case2 x r idx l' byte taken ih =>
    obtain ⟨fits, total'⟩ := fits_getbyte (Nat.zero_le 8) (by simpa using total)
      (fits_zero n idx) taken
    exact Leaves.bind (leaves_storeNonzero fun _ _ => fits) fun _ => ih total'

theorem valid_fromList (result : fromList l = .ok v) : v.Valid := by
  unfold fromList at result
  split at result
  · exact valid_makeRwVector result
  · exact valid_build (fun _ _ => leaves_fill (.inr (by omega))) result

theorem fits_getbyteFn {count count' : Int} {b : Byte}
    {j : Nat} (le : j ≤ 8) (here : count = 8 * i + j) (below : count ≤ n) (fits : Fits n i b)
    (result : getbyteFn n genf count ((1 : Byte) <<< j) b = .ok (count', byte)) :
    Fits n i byte ∧ count' ≤ n ∧ (count' = n ∨ count' = 8 * (i + 1)) := by
  unfold getbyteFn at result
  split at result
  · next full =>
      have last := (one_shiftLeft_eq_zero le).mp full
      cases result
      exact ⟨fits, below, .inr (by omega)⟩
  next more =>
  have lt := Nat.lt_of_le_of_ne le fun eq => more ((one_shiftLeft_eq_zero le).mpr eq)
  split at result
  · next done =>
      cases result
      exact ⟨fits, below, .inl done⟩
  next ne =>
  obtain ⟨x, -, result⟩ := bind_eq_ok.mp result
  rw [← BitVec.shiftLeft_add] at result
  have here' : count + 1 = 8 * i + ((j + 1 : Nat) : Int) := by
    omega
  split at result
  · split at result
    · exact fits_getbyteFn lt here' (by omega)
        (fits.or (fits_one_shiftLeft le (by omega))) result
    · exact fits_getbyteFn lt here' (by omega) fits result
  · cases result
termination_by 8 - j

theorem leaves_fillFn {count : Int}
    (inside : 0 < size → count ≤ n ∧ (count = n ∨ count = 8 * idx)) :
    Leaves n size (fillFn n genf count idx) := by
  fun_induction fillFn n genf count idx with
  | case1 count idx ne e raised => exact .raise e
  | case2 count idx ne count' byte taken ih =>
    have step (pos : 0 < size) :
        Fits n idx byte ∧ count' ≤ n ∧ (count' = n ∨ count' = 8 * (idx + 1)) := by
      obtain ⟨below, here⟩ := inside pos
      exact fits_getbyteFn (Nat.zero_le 8) (by simpa using here.resolve_left ne) below
        (fits_zero n idx) taken
    apply Leaves.bind (leaves_storeNonzero fun _ lt => (step (by omega)).1)
    intro _
    exact ih fun pos => (step pos).2
  | case3 count idx eq => exact Triple.ret fun _ => id

theorem valid_fromFn {len : Int} (result : fromFn len genf = .ok v) : v.Valid := by
  apply valid_build _ result
  intro size whole
  apply leaves_fillFn
  intro pos
  unfold sizeOf at whole
  exact ⟨by omega, .inr rfl⟩

end New

variable {ba v : BoolVector} {n : Int}

theorem valid_mkCopy (valid : ba.Valid) (result : mkCopy ba = .ok v) :
    v.Valid := valid_build (fun _ _ => (keeps_copybits valid.clear (le_refl _)).leaves) result

theorem valid_extend0 (valid : ba.Valid) (result : extend0 ba n = .ok v) : v.Valid := by
  unfold extend0 at result
  split at result
  · exact valid_mkCopy valid result
  · next less =>
      exact valid_buildOn
        (fun _ _ => (keeps_copybits valid.clear (le_of_not_ge less)).leaves) result

theorem extendCpy_clears {nbytes left : Int} {size : Nat} {last : Write Unit}
    (clears : Triple (Clear (8 * size) size) last (fun _ => Clear n size) fun _ => True)
    (rest : Bytes) (i : Int) :
    Triple (Clear (8 * size) size) (extendCpy nbytes left last rest i) (fun _ => Clear n size)
      fun _ => True := by
  have anyStore (i : Int) (b : Byte) :
      Triple (Clear (8 * size) size) (store i b) (fun _ => Clear (8 * size) size) fun _ => True :=
    (keeps_store_any i b).leaves
  fun_induction extendCpy nbytes left last rest i with
  | case1 rest =>
    unfold extendAdjust
    split
    · apply Triple.lift_bind (fun _ _ _ _ => trivial)
      intro b _
      apply Triple.lift_bind (fun _ _ _ _ => trivial)
      intro high _
      exact (anyStore nbytes _).bind fun _ => clears
    · exact clears
  | case2 i ne => exact Triple.raise fun _ _ => trivial
  | case3 i ne b rest ih => exact (anyStore i b).bind fun _ => ih

theorem valid_extend1 (valid : ba.Valid) (result : extend1 ba n = .ok v) : v.Valid := by
  unfold extend1 at result
  split at result
  · exact valid_mkCopy valid result
  · obtain ⟨rfl, size, whole, written⟩ := buildOn_ok result
    have last : Triple (Clear (8 * size) size) (extendLast v.nbits (sizeOf v.nbits))
        (fun _ => Clear v.nbits size) fun _ => True :=
      (extendLast_clears whole).weaken (fun _ => id) (fun _ _ => id) fun _ _ => trivial
    exact valid_of_final whole (extendCpy_clears last ba.bits 0)
      (clear_of_length List.length_replicate) written

theorem leftablet_behind (valid : v.Valid) (shft : Int) (size : Nat) :
    Triple (Clear shft size) (leftablet v.bits shft v.nbits)
      (fun _ => Clear (shft + v.nbits) size) fun _ => True := by
  cases lt_or_ge v.nbits 0 with
  | inl negative =>
    have whole := valid.whole
    unfold sizeOf at whole
    have none : v.bits = [] := List.length_eq_zero_iff.mp (by omega)
    rw [none]
    exact (leftablet_nil (ne_of_lt negative)).triple
  | inr nonneg =>
    exact (leaves_leftablet v.bits (le_refl _) nonneg).weaken
      (fun s clear => clear.mono (by omega)) (fun _ _ => id) fun _ => id

theorem valid_lshift {shft : Int} (valid : ba.Valid)
    (result : lshift ba shft = .ok v) : v.Valid := by
  unfold lshift at result
  split at result
  · cases result
  · split at result
    · exact valid_mkCopy valid result
    · obtain ⟨nbits, size, whole, written⟩ := buildOn_ok result
      have behind := leftablet_behind valid shft size
      rw [add_comm shft, ← nbits] at behind
      rw [← nbits] at whole
      exact valid_of_final whole behind (clear_zero _ size) written

theorem valid_append {ba' : BoolVector} (valid : ba.Valid) (valid' : ba'.Valid)
    (result : append ba ba' = .ok v) : v.Valid := by
  obtain ⟨nbits, size, whole, written⟩ := buildOn_ok result
  have behind := leftablet_behind valid ba'.nbits size
  rw [add_comm ba'.nbits, ← nbits] at behind
  rw [← nbits] at whole
  have copied : Leaves ba'.nbits size (copybits ba'.bits) :=
    (keeps_copybits valid'.clear (le_refl _)).leaves
  exact valid_of_final whole (Triple.bind copied fun _ => behind) (clear_zero _ size) written

theorem catCpy_behind {tl : List BoolVector} (valid : ∀ v ∈ tl, v.Valid) (shft : Int) (size : Nat) :
    Triple (Clear shft size) (catCpy tl shft)
      (fun _ => Clear (shft + (tl.map BoolVector.nbits).sum) size) fun _ => True := by
  induction tl generalizing shft with
  | nil => exact Triple.ret fun _ clear => clear.mono (by simp)
  | cons v tl ih =>
    have rest := ih (fun v' mem => valid v' (List.mem_cons_of_mem _ mem)) (shft + v.nbits)
    rw [add_assoc, ← List.sum_cons, ← List.map_cons] at rest
    exact (leftablet_behind (valid v (List.mem_cons_self ..)) shft size).bind fun _ => rest

theorem valid_cat {l : List BoolVector} (valid : ∀ v ∈ l, v.Valid)
    (result : cat l = .ok v) : v.Valid := by
  unfold cat at result
  split at result
  · exact valid_makeRwVector result
  · next ba => exact valid_mkCopy (valid ba (List.mem_cons_self ..)) result
  · next ba tl _ =>
      obtain ⟨nbits, size, whole, written⟩ := buildOn_ok result
      have behind := catCpy_behind (fun v mem => valid v (List.mem_cons_of_mem _ mem)) ba.nbits size
      rw [← List.sum_cons, ← List.map_cons, ← nbits] at behind
      rw [← nbits] at whole
      have copied : Leaves ba.nbits size (copybits ba.bits) :=
        (keeps_copybits (valid ba (List.mem_cons_self ..)).clear (le_refl _)).leaves
      exact valid_of_final whole (Triple.bind copied fun _ => behind) (clear_zero _ size) written

theorem valid_slice {sbit len : Int} (result : slice ba sbit len = .ok v) : v.Valid := by
  unfold slice at result
  split at result
  · exact valid_makeRwVector result
  · exact valid_buildOn (fun _ _ => leaves_rightablet _ _ (le_refl len)) result

theorem valid_extract {sbit : Int} {len : Option Int}
    (result : extract ba sbit len = .ok v) : v.Valid := by
  unfold extract at result
  split at result
  · split at result
    · cases result
    · exact valid_slice result
  · split at result
    · cases result
    · exact valid_slice result

theorem valid_rshift {shft : Int} (valid : ba.Valid)
    (result : rshift ba shft = .ok v) : v.Valid := by
  unfold rshift at result
  split at result
  · cases result
  · split at result
    · exact valid_mkCopy valid result
    · split at result
      · exact valid_makeRwVector result
      · exact valid_buildOn (fun _ _ => leaves_rightablet _ _ (le_refl _)) result

section Blends

variable {n : Int} {size : Nat} {i len : Int} {v ba : BoolVector}

theorem keeps_andCopy {rest rest' : Bytes}
    (fits : ∀ (j : Nat) b b', rest[j]? = some b → i + j < size → Fits n (i + j) (b &&& b')) :
    Keeps n size (andCopy rest rest' i) := by
  fun_induction andCopy rest rest' i with
  | case1 b rest b' rest' i ih =>
    apply Triple.bind (keeps_store fun _ lt => ?_)
    · intro _
      apply ih
      intro j b b' found
      have next := fits (j + 1) b b' found
      rwa [add_assoc, add_comm 1]
    · have first := fits 0 b b' rfl
      rw [Nat.cast_zero, add_zero] at first
      exact first lt
  | case2 => exact Triple.raise fun _ => id

theorem keeps_orCopy (f : Byte → Byte → Byte) (rest rest' : Bytes) (i : Int) :
    Keeps (8 * size) size (orCopy f rest rest' i) := by
  fun_induction orCopy f rest rest' i with
  | case1 rest i => exact keeps_cpy fun _ b _ lt => fits_of_le (by omega) b
  | case2 b rest b' rest' i ih => exact Triple.bind (keeps_store_any i _) fun _ => ih
  | case3 => exact Triple.raise fun _ => id

theorem valid_newblend {copies : Write Unit}
    (keeps : ∀ size : Nat, Keeps (8 * size) size copies)
    (result : build len (do copies; trim len) = .ok v) : v.Valid := by
  obtain ⟨rfl, size, whole, written⟩ := build_ok result
  have trimmed := Triple.bind (keeps size) fun _ =>
    (trim_clears whole).weaken (fun _ => id) (fun _ _ => id)
      fun s clear => clear_of_length clear.length
  exact valid_of_final whole trimmed (clear_of_length List.length_replicate) written

theorem valid_bitwiseAnd {ba' : BoolVector} (result : bitwiseAnd ba ba' len = .ok v) : v.Valid :=
  valid_newblend (fun _ => keeps_untilRaised
    (keeps_andCopy fun _ b b' _ lt => fits_of_le (by omega) (b &&& b'))) result

theorem valid_orBlend {f : Byte → Byte → Byte} {ba' : BoolVector}
    (result : newblend (orBlend f) ba ba' len = .ok v) : v.Valid :=
  valid_newblend (fun _ => keeps_untilRaised (keeps_orCopy f _ _ _)) result

theorem fits_below (whole : (size : Int) = sizeOf n) (lt : i + 1 < size) (b : Byte) :
    Fits n i b := by
  unfold sizeOf at whole
  exact fits_of_le (by omega) b

theorem store_inside (nonneg : 0 ≤ i) (lt : i < size) (b : Byte) :
    Triple (Clear (8 * size) size) (store i b) (fun _ => Clear (8 * size) size)
      (fun _ => False) := by
  intro bytes clear
  have inside : 0 ≤ i ∧ i < (bytes.length : Int) := by
    rw [clear.length]
    exact ⟨nonneg, lt⟩
  rw [outcome_store_ok inside]
  exact clear_of_length ((List.length_set ..).trans clear.length)

theorem unionLoop_returns {rest rest' : Bytes} (nonneg : 0 ≤ i)
    (length : i + rest.length = size) (le : rest.length ≤ rest'.length) :
    Triple (Clear (8 * size) size) (unionLoop size rest rest' i) (fun _ => Clear (8 * size) size)
      (fun _ => False) := by
  induction rest generalizing rest' i with
  | nil =>
    rw [List.length_nil, Nat.cast_zero, add_zero] at length
    unfold unionLoop
    rw [if_pos length]
    exact Triple.ret fun _ => id
  | cons b rest ih =>
    cases rest' with
    | nil => cases le
    | cons b' rest' =>
      rw [List.length_cons] at length
      unfold unionLoop
      rw [if_neg (by omega)]
      apply (store_inside nonneg (by omega) _).bind
      intro _
      exact ih (by omega) (by omega) (Nat.le_of_succ_le_succ le)

theorem keeps_unionLoop (whole : (size : Int) = sizeOf n) {bnd : Int} (lt : bnd < size)
    (rest rest' : Bytes) (le : i ≤ bnd) : Keeps n size (unionLoop bnd rest rest' i) := by
  fun_induction unionLoop bnd rest rest' i with
  | case1 => exact Triple.ret fun _ => id
  | case2 i ne b rest b' rest' ih =>
    apply Triple.bind (keeps_store fun _ _ => fits_below whole (by omega) _)
    intro _
    exact ih (by omega)
  | case3 => exact Triple.raise fun _ => id

theorem keeps_union (valid : ba.Valid) (ba' : BoolVector) :
    Keeps ba.nbits ba.bits.length (union ba ba') := by
  unfold union
  dsimp only
  split
  · next le =>
      have loop := unionLoop_returns (le_refl 0) (zero_add _) (Int.ofNat_le.mp le)
      have cut := (trim_clears valid.whole).weaken (fun _ => id) (fun _ _ => id) fun _ => id
      have both := (loop.weaken (fun _ => id) (fun _ _ => id) fun _ => False.elim).bind fun _ => cut
      exact both.weaken (fun s clear => clear_of_length clear.length) (fun _ _ => id) fun _ => id
  · next gt => exact keeps_unionLoop valid.whole (not_le.mp gt) _ _ (Int.natCast_nonneg _)

theorem trim_bytes (n : Int) : trim (n * 8) = pure () := by
  have zero : mask7 (n * 8) = 0 := by
    unfold mask7 wmask7
    omega
  unfold trim
  rw [zero]
  rfl

theorem keeps_andBlend (valid : ba.Valid) (ba' : BoolVector) (k : Int) :
    Keeps ba.nbits ba.bits.length (andBlend ba ba' (k * 8)) := by
  unfold andBlend
  rw [trim_bytes]
  refine Triple.bind (keeps_untilRaised (keeps_andCopy ?_)) fun _ => Triple.ret fun _ => id
  intro j b b' found _
  rw [zero_add]
  exact (valid.clear.fits j b found).and b'

theorem keeps_zeroLoop (rest : Bytes) (i : Int) : Keeps n size (zeroLoop rest i) := by
  induction rest generalizing i with
  | nil => exact Triple.raise fun _ => id
  | cons b rest ih => exact Triple.bind (keeps_store fun _ _ => fits_zero n i) fun _ => ih (i + 1)

theorem keeps_intersection (valid : ba.Valid) (ba' : BoolVector) :
    Keeps ba.nbits ba.bits.length (intersection ba ba') := by
  unfold intersection
  dsimp only
  split
  · exact keeps_andBlend valid ba' _
  · exact Triple.bind (keeps_andBlend valid ba' _) fun _ => keeps_untilRaised (keeps_zeroLoop _ _)

theorem keeps_flip (whole : (size : Int) = sizeOf n) (fromBits : Bytes) :
    Keeps n size (flip n fromBits) := by
  have bounds := mask7_bounds n
  have loop (rest : Bytes) {i : Int} (le : 0 < size → i ≤ byteOf n) :
      Keeps n size (flp (byteOf n) (mask7 n) rest i) := by
    fun_induction flp (byteOf n) (mask7 n) rest i with
    | case1 rest odd =>
      apply Triple.lift_bind (fun _ _ _ => id)
      intro b _
      apply Triple.lift_bind (fun _ _ _ => id)
      intro low mask
      exact keeps_store fun _ _ => fits_lobits mask (le_of_eq bounds.2.2) _
    | case2 => exact Triple.ret fun _ => id
    | case3 => exact Triple.raise fun _ => id
    | case4 i ne b rest ih =>
      apply Triple.bind (keeps_store fun nonneg lt => ?_)
      · intro _
        apply ih
        intro pos
        omega
      · have := le (by omega)
        exact fits_of_le (by omega) _
  apply loop
  intro pos
  unfold sizeOf at whole
  unfold byteOf
  omega

theorem keeps_setBit (n i : Int) (size : Nat) : Keeps n size (setBit n i) := by
  unfold setBit
  split
  · exact Triple.raise fun _ => id
  · next lt =>
      apply (fetch_fits _).bind
      intro b
      apply Triple.of_fact
      intro fits
      exact keeps_store fun _ _ => fits.or (fits_bit (not_le.mp lt))

theorem keeps_clrBit (n i : Int) (size : Nat) : Keeps n size (clrBit n i) := by
  unfold clrBit
  split
  · exact Triple.raise fun _ => id
  · apply (fetch_fits _).bind
    intro b
    apply Triple.of_fact
    intro fits
    exact keeps_store fun _ _ => fits.and _

theorem keeps_set (n i : Int) (x : Bool) (size : Nat) : Keeps n size (set n i x) := by
  cases x with
  | true => exact keeps_setBit n i size
  | false => exact keeps_clrBit n i size

theorem keeps_copy' {bitOfFrom : Int → Write Bool}
    (reads : ∀ i, Triple (Clear n size) (bitOfFrom i) (fun _ => Clear n size) (Clear n size))
    (nbits si : Int) (len : Option Int) (dst : Int) :
    Keeps n size (copy' nbits bitOfFrom si len n dst) := by
  have loop (k : Nat) (si dst : Int) : Keeps n size (copyLoop bitOfFrom n k si dst) := by
    induction k generalizing si dst with
    | zero => exact Triple.ret fun _ => id
    | succ k ih =>
      apply (reads si).bind
      intro x
      exact Triple.bind (keeps_set n dst x size) fun _ => ih _ _
  apply Triple.lift_bind (fun _ _ _ => id)
  intro l _
  split
  · exact Triple.raise fun _ => id
  · exact loop _ _ _

theorem reads_bitOf (v : BoolVector) (i : Int) :
    Triple (Clear n size) (liftM (bitOf v i) : Write Bool) (fun _ => Clear n size)
      (Clear n size) := .lift (fun _ _ _ => id) fun _ _ _ => id

theorem reads_bitOfTarget (nbits i : Int) :
    Triple (Clear n size) (bitOfTarget nbits i) (fun _ => Clear n size) (Clear n size) := by
  apply Triple.bind (Q := fun _ => Clear n size) (Triple.state fun _ => id)
  intro bytes
  exact reads_bitOf _ i

theorem mapBits_zero {f : Bool → Except Raised Bool} {k : Nat} {byte mask b : Byte}
    (result : mapBits f k byte 0 mask = .ok b) : b = 0 := by
  induction k generalizing mask with
  | zero =>
    cases result
    rfl
  | succ k ih =>
    unfold mapBits at result
    obtain ⟨x, -, result⟩ := bind_eq_ok.mp result
    cases x with
    | true =>
      have zero : (0 : Byte) &&& mask = 0 := BitVec.zero_and
      simp only [if_true, zero] at result
      exact ih result
    | false => exact ih result

theorem keeps_mapInPlace (f : Bool → Except Raised Bool) (v : BoolVector) :
    Keeps n size (mapInPlace f v) := by
  have loop {f' : Int → Byte → Except Raised Byte} (zero : ∀ i byte b, f' i byte = .ok b → b = 0)
      (rest : Bytes) (i : Int) : Keeps n size (mapBytes f' rest i) := by
    induction rest generalizing i with
    | nil => exact Triple.ret fun _ => id
    | cons byte rest ih =>
      apply Triple.lift_bind (fun _ _ _ => id)
      intro b applied
      obtain rfl := zero i byte b applied
      exact Triple.bind (keeps_store fun _ _ => fits_zero n i) fun _ => ih (i + 1)
  unfold mapInPlace
  split
  · exact Triple.ret fun _ => id
  · apply loop
    intro i byte b applied
    split at applied
    · exact mapBits_zero applied
    · exact mapBits_zero applied

theorem keeps_keyedMapInPlace' (f : Int → Bool → Except Raised Bool) (n sbit : Int)
    (l : Option Int) (size : Nat) : Keeps n size (keyedMapInPlace' f n sbit l) := by
  have loop (k : Nat) {i : Int} (le : i + k ≤ n) : Keeps n size (keyedMapLoop f k i) := by
    induction k generalizing i with
    | zero => exact Triple.ret fun _ => id
    | succ k ih =>
      apply (fetch_fits _).bind
      intro byte
      apply Triple.of_fact
      intro fits
      apply Triple.lift_bind (fun _ _ _ => id)
      intro b' _
      apply Triple.bind (Q := fun _ => Clear n size) ?_ fun _ => ih (by omega)
      unfold changeBit
      split
      · exact Triple.ret fun _ => id
      · split
        · exact keeps_store fun _ _ => fits.or (fits_bit (by omega))
        · exact keeps_store fun _ _ => fits.and _
  unfold keyedMapInPlace'
  split
  · exact Triple.ret fun _ => id
  · apply Triple.lift_bind (fun _ _ _ => id)
    intro len checked
    apply loop
    unfold valid at checked
    split at checked
    · split at checked
      · cases checked
      · cases checked
        omega
    · split at checked
      · cases checked
      · cases checked
        omega

end Blends

theorem valid_bitwiseNot (result : bitwiseNot ba = .ok v) : v.Valid :=
  valid_build (fun _ whole => (keeps_flip whole ba.bits).leaves) result

end Mythryl.RwBoolVector
