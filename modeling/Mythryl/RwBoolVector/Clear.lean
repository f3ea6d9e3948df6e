import Mythryl.RwBoolVector.Basic
import Mathlib.Tactic.IntervalCases
import Mathlib.Algebra.Order.Group.Int

/-!
# The bits past the end are zero

Every writing loop of `rw_bool_vector` masks the byte in which the vector ends.
-/

namespace Mythryl.RwBoolVector
open RaisingState

def Fits (n i : Int) (b : Byte) : Prop :=
  ∀ k : Nat, k < 8 → n ≤ 8 * i + k → b.getLsbD k = false

structure Clear (n : Int) (size : Nat) (bytes : Bytes) : Prop where
  length : bytes.length = size
  fits : ∀ (i : Nat) b, bytes[i]? = some b → Fits n i b

section Bytes

variable {n i r : Int} {b b' m : Byte}

theorem fits_of_le (le : 8 * i + 8 ≤ n) (b : Byte) : Fits n i b := by
  intro k lt above
  omega

theorem fits_zero (n i : Int) : Fits n i 0 := by
  intro k lt above
  exact BitVec.getLsbD_zero

theorem Fits.mono {n' : Int} (h : Fits n i b) (le : n ≤ n') : Fits n' i b := by
  intro k lt above
  exact h k lt (le.trans above)

theorem Fits.or (h : Fits n i b) (h' : Fits n i b') : Fits n i (b ||| b') := by
  intro k lt above
  rw [BitVec.getLsbD_or, h k lt above, h' k lt above]
  rfl

theorem Fits.and (h : Fits n i b) (b' : Byte) : Fits n i (b &&& b') := by
  intro k lt above
  rw [BitVec.getLsbD_and, h k lt above, Bool.false_and]

theorem range_of_checkSub {bytes : Bytes} (result : checkSub bytes i = .ok b) :
    0 ≤ i ∧ bytes[i.toNat]? = some b := by
  unfold checkSub at result
  split at result
  · cases result
  · next nonneg =>
      split at result
      · next found =>
          cases result
          exact ⟨not_lt.mp nonneg, found⟩
      · cases result

theorem lobits_bits (result : lobits r = .ok m) {k : Nat} (lt : k < 8) :
    m.getLsbD k = decide ((k : Int) < r) := by
  obtain ⟨nonneg, found⟩ := range_of_checkSub result
  obtain ⟨r, rfl⟩ := Int.eq_ofNat_of_zero_le nonneg
  have le : r < 9 := (List.getElem?_eq_some_iff.mp found).1
  interval_cases r <;> cases found <;> interval_cases k <;> rfl

theorem fits_lobits (mask : lobits r = .ok m) (le : 8 * i + r ≤ n) (b : Byte) :
    Fits n i (b &&& m) := by
  intro k lt above
  have beyond : ¬ (k : Int) < r := by omega
  rw [BitVec.getLsbD_and, lobits_bits mask lt, decide_eq_false beyond, Bool.and_false]

theorem fits_fit {lb rb : Byte} (result : fit lb rb r = .ok b) (left : Fits n i lb)
    (le : 8 * i + r ≤ n) : Fits n i b := by
  obtain ⟨lo, low, result⟩ := bind_eq_ok.mp result
  obtain ⟨hi, -, rfl⟩ := bind_pure_eq_ok.mp result
  exact (fits_lobits low le rb).or (left.and hi)

variable {j : Nat}

theorem one_shiftLeft_bits {k : Nat} (le : j ≤ 8) (lt : k < 8) :
    ((1 : Byte) <<< j).getLsbD k = decide (k = j) := by
  have all : ∀ j < 9, ∀ k < 8, ((1 : Byte) <<< j).getLsbD k = decide (k = j) := by decide
  exact all j (Nat.lt_succ_of_le le) k lt

theorem one_shiftLeft_eq_zero (le : j ≤ 8) : (1 : Byte) <<< j = 0 ↔ j = 8 := by
  have all : ∀ j < 9, ((1 : Byte) <<< j = 0 ↔ j = 8) := by decide
  exact all j (Nat.lt_succ_of_le le)

theorem fits_one_shiftLeft (le : j ≤ 8) (lt : 8 * i + j < n) : Fits n i ((1 : Byte) <<< j) := by
  intro k lt' above
  rw [one_shiftLeft_bits le lt']
  exact decide_eq_false (by omega)

theorem fits_bit (lt : i < n) : Fits n (byteOf i) (bit i) := by
  apply fits_one_shiftLeft
  · unfold wmask7
    omega
  · unfold byteOf wmask7
    omega

end Bytes

section Steps

variable {n i : Int} {size : Nat} {b : Byte} {bytes : Bytes}

theorem Clear.mono {n' : Int} (h : Clear n size bytes) (le : n ≤ n') :
    Clear n' size bytes := ⟨h.length, fun i b found => (h.fits i b found).mono le⟩

theorem clear_zero (n : Int) (size : Nat) : Clear n size (List.replicate size 0) := by
  refine ⟨List.length_replicate, ?_⟩
  intro i b found
  obtain ⟨-, rfl⟩ := List.getElem?_replicate.symm.trans found |> fun h => by
    simpa [Option.ite_none_right_eq_some] using h
  exact fits_zero n i

def Keeps (n : Int) (size : Nat) (m : Write Unit) : Prop :=
  Triple (Clear n size) m (fun _ => Clear n size) (Clear n size)

def Leaves (n : Int) (size : Nat) (m : Write Unit) : Prop :=
  Triple (Clear n size) m (fun _ => Clear n size) (fun _ => True)

theorem Keeps.leaves {m : Write Unit} (h : Keeps n size m) : Leaves n size m :=
  h.weaken (fun _ => id) (fun _ _ => id) (fun _ _ => trivial)

theorem fetch_fits (i : Int) : Triple (Clear n size) (fetch i)
    (fun b s => Fits n i b ∧ Clear n size s) (Clear n size) := by
  intro bytes clear
  have read : outcome (fetch i) bytes = (checkSub bytes i, bytes) := rfl
  rw [read]
  cases result : checkSub bytes i with
  | error e => exact clear
  | ok b =>
    obtain ⟨nonneg, found⟩ := range_of_checkSub result
    have fits := clear.fits _ _ found
    rw [Int.toNat_of_nonneg nonneg] at fits
    exact ⟨fits, clear⟩

theorem clear_set (clear : Clear n size bytes) (nonneg : 0 ≤ i)
    (fits : Fits n i b) : Clear n size (bytes.set i.toNat b) := by
  refine ⟨(List.length_set ..).trans clear.length, ?_⟩
  intro j b' found
  rw [List.getElem?_set] at found
  split at found
  · next same =>
      split at found
      · cases found
        rw [← same, Int.toNat_of_nonneg nonneg]
        exact fits
      · cases found
  · exact clear.fits j b' found

theorem outcome_store_ok (inside : 0 ≤ i ∧ i < (bytes.length : Int)) (b : Byte) :
    outcome (store i b) bytes = (.ok (), bytes.set i.toNat b) := by
  simp only [outcome, store, checkSet, ExceptT.run_mk, StateT.run, if_pos inside]

theorem outcome_store_error (outside : ¬(0 ≤ i ∧ i < (bytes.length : Int))) (b : Byte) :
    outcome (store i b) bytes = (.error .subscript, bytes) := by
  simp only [outcome, store, checkSet, ExceptT.run_mk, StateT.run, if_neg outside]

theorem keeps_store (fits : 0 ≤ i → i < size → Fits n i b) : Keeps n size (store i b) := by
  intro bytes clear
  by_cases inside : 0 ≤ i ∧ i < (bytes.length : Int)
  · rw [outcome_store_ok inside]
    obtain ⟨nonneg, lt⟩ := inside
    rw [clear.length] at lt
    exact clear_set clear nonneg (fits nonneg lt)
  · rw [outcome_store_error inside]
    exact clear

theorem keeps_store_fit {d left : Int} (le : 8 * d + left ≤ n) (rb : Byte) :
    Keeps n size (do store d (← fit (← fetch d) rb left)) := by
  apply (fetch_fits d).bind
  intro lb
  apply Triple.of_fact
  intro fits
  apply Triple.lift_bind (fun _ _ _ => id)
  intro b result
  exact keeps_store fun _ _ => fits_fit result fits le

theorem fetch_inside {i : Int} (nonneg : 0 ≤ i) (lt : i < size) :
    Triple (Clear n size) (fetch i) (fun _ => Clear n size) (fun _ => False) := by
  intro bytes clear
  have read : outcome (fetch i) bytes = (checkSub bytes i, bytes) := rfl
  have inside : i.toNat < bytes.length := by
    rw [clear.length]
    omega
  have found : checkSub bytes i = .ok bytes[i.toNat] := by
    unfold checkSub
    rw [if_neg (not_lt.mpr nonneg), List.getElem?_eq_getElem inside]
  rw [read, found]
  exact clear

theorem lobits_ok {r : Int} (nonneg : 0 ≤ r) (le : r ≤ 8) : ∃ m, lobits r = .ok m := by
  have lt : r < 9 := by omega
  interval_cases r <;> exact ⟨_, rfl⟩

theorem clear_of_length (length : bytes.length = size) : Clear (8 * size) size bytes := by
  refine ⟨length, ?_⟩
  intro i b found
  have lt : i < bytes.length := (List.getElem?_eq_some_iff.mp found).1
  exact fits_of_le (by omega) b

theorem clear_nil (n : Int) (length : bytes.length = 0) : Clear n 0 bytes := by
  obtain rfl := List.length_eq_zero_iff.mp length
  refine ⟨rfl, ?_⟩
  intro i b found
  cases found

theorem keeps_store_any (i : Int) (b : Byte) : Keeps (8 * size) size (store i b) :=
  keeps_store fun _ lt => fits_of_le (by omega) b

theorem sizeOf_bounds (n : Int) : n ≤ 8 * sizeOf n ∧ 8 * sizeOf n < n + 8 := by
  unfold sizeOf
  omega

theorem clear_set_last (length : bytes.length = size)
    (whole : (size : Int) = sizeOf n) {i : Int} (last : i = size - 1) (nonneg : 0 ≤ i)
    (fits : Fits n i b) : Clear n size (bytes.set i.toNat b) := by
  have bounds := sizeOf_bounds n
  refine ⟨(List.length_set ..).trans length, ?_⟩
  intro j b' found
  rw [List.getElem?_set] at found
  split at found
  · next same =>
      split at found
      · cases found
        rw [← same, Int.toNat_of_nonneg nonneg]
        exact fits
      · cases found
  · next other =>
      have lt : j < bytes.length := (List.getElem?_eq_some_iff.mp found).1
      exact fits_of_le (by omega) b'

theorem mask_last (whole : (size : Int) = sizeOf n) (i : Int) (last : i = size - 1) :
    Triple (Clear (8 * size) size) (do store i ((← fetch i) &&& (← lobits (mask7 n))))
      (fun _ => Clear n size) (Clear n size) := by
  cases Nat.eq_zero_or_pos size with
  | inl zero =>
    subst zero
    have empty : Keeps n 0 (do store i ((← fetch i) &&& (← lobits (mask7 n)))) := by
      apply (fetch_fits i).bind
      intro b
      apply Triple.of_fact
      intro _
      apply Triple.lift_bind (fun _ _ _ => id)
      intro m _
      exact keeps_store fun nonneg lt => by omega
    exact empty.weaken (fun s clear => clear_nil n clear.length) (fun _ _ => id) (fun _ => id)
  | inr pos =>
    apply ((fetch_inside (by omega) (by omega)).weaken (fun _ => id) (fun _ _ => id)
      (fun _ => False.elim)).bind
    intro b
    have range : 0 ≤ mask7 n ∧ mask7 n ≤ 8 := by
      unfold mask7 wmask7
      omega
    obtain ⟨m, mask⟩ := lobits_ok range.1 range.2
    apply Triple.lift_bind
    · intro e raised
      rw [mask] at raised
      cases raised
    intro m' mask' bytes clear
    have inside : 0 ≤ i ∧ i < (bytes.length : Int) := by
      rw [clear.length]
      omega
    rw [outcome_store_ok inside]
    have below : 8 * i + mask7 n ≤ n := by
      unfold mask7 wmask7
      unfold sizeOf at whole
      omega
    exact clear_set_last clear.length whole last inside.1 (fits_lobits mask' below b)

theorem trim_clears (whole : (size : Int) = sizeOf n) :
    Triple (Clear (8 * size) size) (trim n) (fun _ => Clear n size) (Clear n size) := by
  unfold trim
  split
  · next even =>
      have full : 8 * (size : Int) ≤ n := by
        unfold mask7 wmask7 at even
        unfold sizeOf at whole
        omega
      exact Triple.ret fun s clear => clear.mono full
  · apply Triple.bind (Q := fun bytes s => bytes.length = size ∧ Clear (8 * size) size s)
    · exact Triple.state fun s clear => ⟨clear.length, clear⟩
    · intro bytes
      apply Triple.of_fact
      intro length
      exact mask_last whole _ (by rw [length])

theorem extendLast_clears (whole : (size : Int) = sizeOf n) :
    Triple (Clear (8 * size) size) (extendLast n (sizeOf n)) (fun _ => Clear n size)
      (Clear n size) := by
  unfold extendLast
  split
  · next even =>
      have full : 8 * (size : Int) ≤ n := by
        unfold mask7 wmask7 at even
        unfold sizeOf at whole
        omega
      exact Triple.ret fun s clear => clear.mono full
  · exact mask_last whole _ (by rw [whole])

end Steps

section Loops

variable {n : Int} {size : Nat}

theorem keeps_untilRaised {loop : Write Unit} (h : Keeps n size loop) :
    Keeps n size (untilRaised loop) := h.handle fun _ => .ret fun _ => id

theorem keeps_cpy {rest : Bytes} {i : Int}
    (fits : ∀ (j : Nat) b, rest[j]? = some b → i + j < size → Fits n (i + j) b) :
    Keeps n size (cpy rest i) := by
  induction rest generalizing i with
  | nil => exact Triple.raise fun _ => id
  | cons b rest ih =>
    apply Triple.bind (keeps_store fun _ lt => ?_)
    · intro _
      apply ih
      intro j b' found
      have next := fits (j + 1) b' found
      rwa [add_assoc, add_comm 1]
    · have first := fits 0 b rfl
      rw [Nat.cast_zero, add_zero] at first
      exact first lt

theorem keeps_copybits {m : Int} {bits : Bytes} {size' : Nat} (clear : Clear m size' bits)
    (le : m ≤ n) : Keeps n size (copybits bits) := by
  apply keeps_untilRaised
  apply keeps_cpy
  intro j b found _
  rw [zero_add]
  exact (clear.fits j b found).mono le

theorem Leaves.bind {α : Type} {m : Write α} {f : α → Write Unit}
    (first : Triple (Clear n size) m (fun _ => Clear n size) (fun _ => True))
    (rest : ∀ a, Leaves n size (f a)) : Leaves n size (m >>= f) := Triple.bind first rest

theorem Leaves.lift_bind {α : Type} {x : Except Raised α} {f : α → Write Unit}
    (rest : ∀ a, x = .ok a → Leaves n size (f a)) : Leaves n size (liftM x >>= f) :=
  Triple.lift_bind (fun _ _ _ _ => trivial) rest

theorem Leaves.raise (e : Raised) : Leaves n size (throw e) := Triple.raise fun _ _ => trivial

variable {d lastbyte len : Int}

theorem leaves_fetch_bind {f : Byte → Write Unit}
    (rest : ∀ b, Fits n d b → Leaves n size (f b)) : Leaves n size (fetch d >>= f) := by
  apply ((fetch_fits d).weaken (fun _ => id) (fun _ _ => id) fun _ _ => trivial).bind
  intro b
  exact Triple.of_fact (rest b)

theorem leaves_simpleCopy (last : 8 * lastbyte + mask7 len ≤ n)
    (whole : mask7 len = 0 → 8 * lastbyte + 8 ≤ n) (rest : Bytes) (le : d ≤ lastbyte) :
    Leaves n size (simpleCopy lastbyte len rest d) := by
  fun_induction simpleCopy lastbyte len rest d with
  | case1 rest even =>
    apply Leaves.lift_bind
    intro b _
    exact (keeps_store fun _ _ => fits_of_le (whole even) b).leaves
  | case2 rest odd =>
    apply leaves_fetch_bind
    intro lb fits
    apply Leaves.lift_bind
    intro rb _
    apply Leaves.lift_bind
    intro b result
    exact (keeps_store fun _ _ => fits_fit result fits last).leaves
  | case3 d ne => exact .raise _
  | case4 d ne b rest ih =>
    have full : 8 * d + 8 ≤ n := by
      unfold mask7 at last
      omega
    apply Leaves.bind (keeps_store fun _ _ => fits_of_le full b).leaves
    intro _
    exact ih (by omega)

theorem mask7_bounds (i : Int) : 0 ≤ mask7 i ∧ mask7 i < 8 ∧ 8 * byteOf i + mask7 i = i := by
  unfold mask7 wmask7 byteOf
  omega

theorem leaves_finishRight (bitshift : Nat) (le : 8 * d + (mask7 (len - 1) + 1) ≤ n)
    (sb : Byte) (rest : Bytes) : Leaves n size (finishRight bitshift len sb rest d) := by
  unfold finishRight
  dsimp only
  split
  · exact (keeps_store_fit le _).leaves
  · apply Leaves.lift_bind
    intro next _
    exact (keeps_store_fit le _).leaves

theorem leaves_loopRight (bitshift : Nat)
    (last : 8 * lastbyte + (mask7 (len - 1) + 1) ≤ n) (sb : Byte) (rest : Bytes)
    (le : d ≤ lastbyte) : Leaves n size (loopRight bitshift lastbyte len sb rest d) := by
  fun_induction loopRight bitshift lastbyte len sb rest d with
  | case1 sb rest => exact leaves_finishRight bitshift last sb rest
  | case2 sb d ne => exact .raise _
  | case3 sb d ne sb' rest ih =>
    have bounds := mask7_bounds (len - 1)
    apply Leaves.bind (keeps_store fun _ _ => fits_of_le (by omega) _).leaves
    intro _
    exact ih (by omega)

def Never (m : Write Unit) : Prop := Triple (fun _ => True) m (fun _ _ => False) fun _ => True

theorem Never.triple {m : Write Unit} (h : Never m) {P Q : Bytes → Prop} :
    Triple P m (fun _ => Q) fun _ => True :=
  h.weaken (fun _ _ => trivial) (fun _ _ => False.elim) fun _ => id

theorem Never.raise (e : Raised) : Never (throw e) := Triple.raise fun _ => id

theorem Never.bind {α : Type} (m : Write α) {f : α → Write Unit} (rest : ∀ a, Never (f a)) :
    Never (m >>= f) := by
  refine Triple.bind (Q := fun _ _ => True) ?_ rest
  intro s _
  split <;> trivial

theorem Never.lift_bind {α : Type} {x : Except Raised α} {f : α → Write Unit}
    (rest : ∀ a, x = .ok a → Never (f a)) : Never (liftM x >>= f) :=
  Triple.lift_bind (fun _ _ _ => id) rest

theorem simpleCopy_past (rest : Bytes) (lt : lastbyte < d) :
    Never (simpleCopy lastbyte len rest d) := by
  induction rest generalizing d with
  | nil =>
    unfold simpleCopy
    rw [if_neg (by omega)]
    exact .raise _
  | cons b rest ih =>
    unfold simpleCopy
    rw [if_neg (by omega)]
    exact .bind _ fun _ => ih (by omega)

theorem loopRight_past {bitshift : Nat} (sb : Byte) (rest : Bytes)
    (lt : lastbyte < d) : Never (loopRight bitshift lastbyte len sb rest d) := by
  induction rest generalizing sb d with
  | nil =>
    unfold loopRight
    rw [if_neg (by omega)]
    exact .raise _
  | cons b rest ih =>
    unfold loopRight
    rw [if_neg (by omega)]
    exact .bind _ fun _ => ih b (by omega)

theorem leaves_rightablet (fromBits : Bytes) (shft : Int) (le : len ≤ n) :
    Leaves n size (rightablet fromBits shft len) := by
  have bounds := mask7_bounds (len - 1)
  have bounds' := mask7_bounds len
  unfold rightablet
  dsimp only
  split
  · cases lt_or_ge (byteOf (len - 1)) 0 with
    | inl past => exact (simpleCopy_past _ past).triple
    | inr inside =>
      have last : 8 * byteOf (len - 1) + mask7 len ≤ n := by
        unfold byteOf at *
        omega
      apply leaves_simpleCopy last _ _ inside
      intro even
      unfold byteOf at *
      omega
  · apply Leaves.lift_bind
    intro sb _
    cases lt_or_ge (byteOf (len - 1)) 0 with
    | inl past => exact (loopRight_past sb _ past).triple
    | inr inside => exact leaves_loopRight _ (by omega) sb _ inside

theorem leaves_sliceCopy (fromBits : Bytes) {bitshift : Nat}
    (le : 8 * d + bitshift + len ≤ n) : Leaves n size (sliceCopy fromBits bitshift d len) := by
  apply Leaves.lift_bind
  intro low mask
  apply Leaves.lift_bind
  intro first _
  apply leaves_fetch_bind
  intro old fits
  have masked : Fits n d (low <<< bitshift) := by
    intro k lt above
    rw [BitVec.getLsbD_shiftLeft]
    cases Nat.lt_or_ge k bitshift with
    | inl under => rw [decide_eq_true under, Bool.not_true, Bool.and_false, Bool.false_and]
    | inr past =>
      have beyond : ¬ ((k - bitshift : Nat) : Int) < len := by omega
      rw [lobits_bits mask (Nat.lt_of_le_of_lt (Nat.sub_le ..) lt), decide_eq_false beyond,
        Bool.and_false]
  apply (keeps_store fun _ _ => ?_).leaves
  rw [BitVec.and_comm]
  exact (masked.and _).or (fits.and _)

theorem leaves_finishLeft {last : Int} (bitshift : Nat) (le : 8 * d + (mask7 last + 1) ≤ n)
    (sb : Byte) (rest : Bytes) : Leaves n size (finishLeft bitshift last sb rest d) := by
  unfold finishLeft
  dsimp only
  split
  · exact (keeps_store_fit le _).leaves
  · apply Leaves.lift_bind
    intro next _
    exact (keeps_store_fit le _).leaves

theorem leaves_loopLeft {last : Int} (bitshift : Nat)
    (le' : 8 * lastbyte + (mask7 last + 1) ≤ n) (sb : Byte) (rest : Bytes)
    (le : d ≤ lastbyte) : Leaves n size (loopLeft bitshift lastbyte last sb rest d) := by
  fun_induction loopLeft bitshift lastbyte last sb rest d with
  | case1 sb rest => exact leaves_finishLeft bitshift le' sb rest
  | case2 sb d ne => exact .raise _
  | case3 sb d ne sb' rest ih =>
    have bounds := mask7_bounds last
    apply Leaves.bind (keeps_store fun _ _ => fits_of_le (by omega) _).leaves
    intro _
    exact ih (by omega)

theorem leftablet_nil {shft : Int} (nonzero : len ≠ 0) : Never (leftablet [] shft len) := by
  have never {f : Byte → Write Unit} : Never (liftM (checkFirst []) >>= f) :=
    .lift_bind fun b found => by cases found
  unfold leftablet
  rw [if_neg nonzero]
  dsimp only
  split
  · unfold simpleCopy
    split
    · split
      · exact never
      · exact .bind _ fun _ => never
    · exact .raise _
  · split
    · exact .lift_bind fun _ _ => never
    · exact never

theorem leaves_leftablet (fromBits : Bytes) {shft : Int} (le : shft + len ≤ n)
    (nonneg : 0 ≤ len) : Leaves n size (leftablet fromBits shft len) := by
  have bounds := mask7_bounds (shft + len - 1)
  have bounds' := mask7_bounds shft
  unfold leftablet
  split
  · exact Triple.ret fun _ => id
  next nonzero =>
  dsimp only
  split
  · next aligned =>
      have bounds'' := mask7_bounds (shft + len)
      unfold byteOf at bounds bounds' bounds''
      apply leaves_simpleCopy
      · unfold byteOf
        unfold mask7 wmask7 at *
        omega
      · unfold byteOf
        unfold mask7 wmask7 at *
        omega
      · unfold byteOf
        omega
  · split
    · next same =>
        apply leaves_sliceCopy
        unfold mask7 at bounds'
        omega
    · next differ =>
        have before : byteOf shft + 1 ≤ byteOf (shft + len - 1) := by
          unfold byteOf at *
          omega
        apply Leaves.lift_bind
        intro sb _
        apply leaves_fetch_bind
        intro old _
        apply Leaves.lift_bind
        intro first _
        apply Leaves.bind (keeps_store fun _ _ => fits_of_le (by omega) first).leaves
        intro _
        exact leaves_loopLeft _ (by omega) sb _ before

end Loops

end Mythryl.RwBoolVector
