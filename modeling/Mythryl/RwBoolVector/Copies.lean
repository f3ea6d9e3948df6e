import Mythryl.RwBoolVector.Runs

/-!
# Copies at any offset are exact

What the copying loops of `rw_bool_vector` do to single bits: the shifts, slices and concatenations
move every bit to its place, whatever stands in the padding of the vectors they copy from.
-/

namespace Mythryl.RwBoolVector
open RaisingState

def bitAt (bytes : Bytes) (p : Nat) : Bool := (bytes.getD (p / 8) 0).getLsbD (p % 8)

@[simp] theorem bitAt_nil (p : Nat) : bitAt [] p = false := by
  simp [bitAt]

theorem bitAt_cons (b : Byte) (rest : Bytes) (p : Nat) :
    bitAt (b :: rest) p = if p < 8 then b.getLsbD p else bitAt rest (p - 8) := by
  unfold bitAt
  split
  · next lt => rw [Nat.div_eq_of_lt lt, Nat.mod_eq_of_lt lt, List.getD_cons_zero]
  · next ge =>
      have index : p / 8 = (p - 8) / 8 + 1 := by omega
      have position : p % 8 = (p - 8) % 8 := by omega
      rw [index, position, List.getD_cons_succ]

theorem bitAt_drop (bytes : Bytes) (d p : Nat) :
    bitAt (bytes.drop d) p = bitAt bytes (8 * d + p) := by
  have index : (8 * d + p) / 8 = d + p / 8 := by omega
  have position : (8 * d + p) % 8 = p % 8 := by omega
  simp [bitAt, index, position, List.getD_eq_getElem?_getD]

variable {bytes : Bytes} {i p n : Nat} {v : BoolVector}

theorem bitAt_set (lt : i < bytes.length) (b : Byte) (p : Nat) :
    bitAt (bytes.set i b) p = if p / 8 = i then b.getLsbD (p % 8) else bitAt bytes p := by
  simp only [bitAt, List.getD_eq_getElem?_getD, List.getElem?_set]
  by_cases same : p / 8 = i
  · simp [same, lt]
  · simp [same, Ne.symm same]

theorem bitAt_past (past : 8 * bytes.length ≤ p) : bitAt bytes p = false := by
  have none : bytes.length ≤ p / 8 := by omega
  simp [bitAt, List.getD_eq_getElem?_getD, List.getElem?_eq_none none]

theorem bitAt_replicate (size p : Nat) : bitAt (List.replicate size 0) p = false := by
  simp only [bitAt, List.getD_eq_getElem?_getD, List.getElem?_replicate]
  split <;> simp

theorem outcome_store (lt : i < bytes.length) (b : Byte) :
    outcome (store i b) bytes = (.ok (), bytes.set i b) := by
  have inside : 0 ≤ (i : Int) ∧ (i : Int) < bytes.length := by omega
  rw [outcome_store_ok inside, Int.toNat_natCast]

theorem outcome_fetch (lt : i < bytes.length) :
    outcome (fetch i) bytes = (.ok bytes[i], bytes) := by
  have read : outcome (fetch i) bytes = (checkSub bytes i, bytes) := rfl
  rw [read, checkSub, if_neg (by omega), Int.toNat_natCast, List.getElem?_eq_getElem lt]

theorem bitAt_eq_getElem (lt : i < bytes.length) {k : Nat} (small : k < 8) :
    bitAt bytes (8 * i + k) = bytes[i].getLsbD k := by
  have index : (8 * i + k) / 8 = i := by omega
  have position : (8 * i + k) % 8 = k := by omega
  simp [bitAt, index, position, List.getElem?_eq_getElem lt]

def Writes (m : Write Unit) (bytes : Bytes) (lo hi : Nat) (bit : Nat → Bool) : Prop :=
  ∃ bytes', outcome m bytes = (.ok (), bytes') ∧ bytes'.length = bytes.length ∧
    ∀ p, bitAt bytes' p = if lo ≤ p ∧ p < hi then bit p else bitAt bytes p

section Writes

variable {bytes : Bytes} {lo mid hi : Nat} {bit bit' : Nat → Bool} {m m' : Write Unit}

theorem Writes.congr (h : Writes m bytes lo hi bit)
    (same : ∀ p, lo ≤ p → p < hi → bit p = bit' p) : Writes m bytes lo hi bit' := by
  obtain ⟨bytes', run, length, bits⟩ := h
  refine ⟨bytes', run, length, fun p => ?_⟩
  rw [bits p]
  split
  · next within => exact same p within.1 within.2
  · rfl

theorem Writes.nothing (bytes : Bytes) (lo : Nat) (bit : Nat → Bool) :
    Writes (pure ()) bytes lo lo bit :=
  ⟨bytes, rfl, rfl, fun p => by rw [if_neg (by omega)]⟩

theorem Writes.onward (first : Writes m bytes lo mid bit)
    (rest : ∀ bytes', bytes'.length = bytes.length →
      (∀ p, mid ≤ p → bitAt bytes' p = bitAt bytes p) → Writes m' bytes' mid hi bit)
    (le : lo ≤ mid) (le' : mid ≤ hi) : Writes (do m; m') bytes lo hi bit := by
  obtain ⟨bytes', run, length, bits⟩ := first
  obtain ⟨bytes'', run', length', bits'⟩ := rest bytes' length fun p ge => by
    rw [bits p, if_neg (by omega)]
  refine ⟨bytes'', (outcome_bind_ok run).trans run', length'.trans length, fun p => ?_⟩
  rw [bits' p, bits p]
  by_cases high : mid ≤ p ∧ p < hi
  · rw [if_pos high, if_pos ⟨le.trans high.1, high.2⟩]
  · rw [if_neg high]
    by_cases low : lo ≤ p ∧ p < mid
    · rw [if_pos low, if_pos ⟨low.1, low.2.trans_le le'⟩]
    · rw [if_neg low, if_neg (by omega)]

theorem Writes.next (first : Writes m bytes lo mid bit)
    (rest : ∀ bytes', bytes'.length = bytes.length → Writes m' bytes' mid hi bit)
    (le : lo ≤ mid) (le' : mid ≤ hi) : Writes (do m; m') bytes lo hi bit :=
  first.onward (fun bytes' length _ => rest bytes' length) le le'

theorem Writes.after {α : Type} {a : α} {first : Write α} {rest : α → Write Unit}
    (run : outcome first bytes = (.ok a, bytes)) (h : Writes (rest a) bytes lo hi bit) :
    Writes (first >>= rest) bytes lo hi bit := by
  obtain ⟨bytes', run', done⟩ := h
  exact ⟨bytes', (outcome_bind_ok run).trans run', done⟩

variable {d : Nat}

theorem writes_part (bit : Nat → Bool) {a c : Nat} (lt : d < bytes.length) (le : c ≤ 8) {b : Byte}
    (bits : ∀ k < 8, b.getLsbD k = if a ≤ k ∧ k < c then bit (8 * d + k) else bytes[d].getLsbD k) :
    Writes (store d b) bytes (8 * d + a) (8 * d + c) bit := by
  refine ⟨_, outcome_store lt b, List.length_set .., fun p => ?_⟩
  rw [bitAt_set lt]
  by_cases same : p / 8 = d
  · have whole : 8 * d + p % 8 = p := by omega
    rw [if_pos same, bits _ (Nat.mod_lt _ (by decide)), whole,
      ← bitAt_eq_getElem lt (Nat.mod_lt _ (by decide)), whole]
    congr 1
    simp only [eq_iff_iff]
    omega
  · rw [if_neg same, if_neg (by omega)]

theorem writes_store (bit : Nat → Bool) (lt : d < bytes.length) {b : Byte}
    (bits : ∀ k < 8, b.getLsbD k = bit (8 * d + k)) :
    Writes (store d b) bytes (8 * d) (8 * d + 8) bit :=
  writes_part bit lt (le_refl 8) fun k lt => by rw [if_pos ⟨Nat.zero_le k, lt⟩, bits k lt]

theorem hibits_bits {r : Int} {h : Byte} (result : hibits r = .ok h) {k : Nat} (lt : k < 8) :
    h.getLsbD k = decide (r ≤ k) := by
  obtain ⟨nonneg, found⟩ := range_of_checkSub result
  obtain ⟨r, rfl⟩ := Int.eq_ofNat_of_zero_le nonneg
  have le : r < 9 := (List.getElem?_eq_some_iff.mp found).1
  interval_cases r <;> cases found <;> interval_cases k <;> rfl

theorem hibits_ok {r : Int} (nonneg : 0 ≤ r) (le : r ≤ 8) : ∃ h, hibits r = .ok h := by
  have lt : r < 9 := by omega
  interval_cases r <;> exact ⟨_, rfl⟩

theorem fit_bits (lb rb : Byte) {r : Nat} (le : r ≤ 8) : ∃ b, fit lb rb r = .ok b ∧
      ∀ k < 8, b.getLsbD k = if k < r then rb.getLsbD k else lb.getLsbD k := by
  obtain ⟨low, lowEq⟩ := lobits_ok (Int.natCast_nonneg r) (by exact_mod_cast le)
  obtain ⟨high, highEq⟩ := hibits_ok (Int.natCast_nonneg r) (by exact_mod_cast le)
  refine ⟨(rb &&& low) ||| (lb &&& high), ?_, fun k lt => ?_⟩
  · unfold fit
    rw [lowEq, highEq]
    rfl
  · rw [BitVec.getLsbD_or, BitVec.getLsbD_and, BitVec.getLsbD_and, lobits_bits lowEq lt,
      hibits_bits highEq lt]
    by_cases below : k < r
    · simp [below]
    · simp [below, Nat.not_lt.mp below]

theorem writes_fit (bit : Nat → Bool) (left : Nat) (lt : d < bytes.length)
    (le : left ≤ 8) {rb : Byte} (bits : ∀ k < left, rb.getLsbD k = bit (8 * d + k)) :
    Writes (do store d (← fit (← fetch d) rb left)) bytes (8 * d) (8 * d + left) bit := by
  obtain ⟨b, fitted, bits'⟩ := fit_bits bytes[d] rb le
  apply Writes.after (outcome_fetch lt)
  apply Writes.after (a := b) (by rw [fitted, outcome_lift])
  apply writes_part bit lt le (a := 0)
  intro k lt8
  rw [bits' k lt8]
  by_cases below : k < left
  · rw [if_pos below, if_pos ⟨Nat.zero_le k, below⟩, bits k below]
  · rw [if_neg below, if_neg (by omega)]

end Writes

@[simp] theorem wmask7_natCast (n : Nat) : wmask7 n = n % 8 := by
  unfold wmask7
  omega

@[simp] theorem mask7_natCast (n : Nat) : mask7 n = (n % 8 : Nat) := by
  rw [mask7, wmask7_natCast]

@[simp] theorem byteOf_natCast (n : Nat) : byteOf n = (n / 8 : Nat) := by
  unfold byteOf
  omega

section Loops

variable {bytes : Bytes}

theorem checkFirst_cons (b : Byte) (rest : Bytes) : checkFirst (b :: rest) = .ok b := rfl

variable {d e k r len : Nat} {rest : Bytes}

theorem simpleCopy_writes {len : Int} (before : d ≤ (e - 1) / 8)
    (pos : 0 < e) (odd : mask7 len = (e % 8 : Nat)) (source : e ≤ 8 * (d + rest.length))
    (room : e ≤ 8 * bytes.length) :
    Writes (simpleCopy ((e - 1) / 8 : Nat) len rest d) bytes (8 * d) e
      fun p => bitAt rest (p - 8 * d) := by
  induction rest generalizing d bytes with
  | nil => simp at source; omega
  | cons b rest ih =>
    have bits (k : Nat) (lt : k < 8) : b.getLsbD k = bitAt (b :: rest) (8 * d + k - 8 * d) := by
      rw [Nat.add_sub_cancel_left, bitAt_cons, if_pos lt]
    unfold simpleCopy
    by_cases last : d = (e - 1) / 8
    · rw [if_pos (by rw [last]), odd, checkFirst_cons]
      rcases Nat.eq_zero_or_pos (e % 8) with zero | left
      · have whole : e = 8 * d + 8 := by omega
        rw [zero, whole]
        exact writes_store _ (by omega) bits
      · have whole : e = 8 * d + e % 8 := by omega
        have nonzero : ((e % 8 : Nat) : Int) ≠ 0 := by omega
        split
        · next zero => exact (nonzero zero).elim
        · have inside : d < bytes.length := by omega
          have fitted := writes_fit (fun p => bitAt (b :: rest) (p - 8 * d)) (e % 8) inside
            (by omega) fun k lt => bits k (by omega)
          rw [← whole] at fitted
          exact fitted
    · rw [if_neg (by exact_mod_cast last)]
      refine Writes.next (writes_store _ (by omega) bits) (fun bytes' length => ?_) (by omega)
        (by omega)
      simp only [List.length_cons] at source
      refine (ih (d := d + 1) (by omega) (by omega) (by omega)).congr fun p le _ => ?_
      rw [bitAt_cons, if_neg (by omega), Nat.mul_succ, Nat.sub_add_eq]

theorem and_whole (b : Byte) : b &&& 0xff = b := BitVec.and_allOnes

def shiftedFrom (r d : Nat) (source : Bytes) (p : Nat) : Bool := bitAt source (p - 8 * d + r)

theorem shifted_bits (sb sb' : Byte) (le : r ≤ 8) (lt : k < 8) (d : Nat)
    (rest : Bytes) : ((sb >>> r) ||| (sb' <<< (8 - r))).getLsbD k =
      shiftedFrom r d (sb :: sb' :: rest) (8 * d + k) := by
  rw [shiftedFrom, Nat.add_sub_cancel_left]
  rw [BitVec.getLsbD_or, BitVec.getLsbD_ushiftRight, BitVec.getLsbD_shiftLeft, bitAt_cons,
    Nat.add_comm r]
  by_cases first : k + r < 8
  · simp [first, show k < 8 - r by omega]
  · rw [if_neg first, bitAt_cons, if_pos (by omega), BitVec.getLsbD_of_ge _ _ (by omega)]
    simp [lt, show ¬ k < 8 - r by omega, show k - (8 - r) = k + r - 8 by omega]

theorem finishRight_writes {sb : Byte} {len : Int} (small : r < 8)
    (last : d = (e - 1) / 8) (pos : 0 < e) (odd : mask7 (len - 1) = ((e - 1) % 8 : Nat))
    (source : e + r ≤ 8 * (d + 1 + rest.length)) (room : e ≤ 8 * bytes.length) :
    Writes (finishRight r len sb rest d) bytes (8 * d) e (shiftedFrom r d (sb :: rest)) := by
  have whole : e = 8 * d + ((e - 1) % 8 + 1) := by omega
  have inside : d < bytes.length := by omega
  have left : mask7 (len - 1) + 1 = ((e - 1) % 8 + 1 : Nat) := by
    rw [odd]
    rfl
  unfold finishRight
  dsimp only
  rw [left]
  split
  · next enough =>
      have bits (k : Nat) (lt : k < (e - 1) % 8 + 1) :
          (sb >>> r).getLsbD k = shiftedFrom r d (sb :: rest) (8 * d + k) := by
        have within : k + r < 8 := by omega
        simp [shiftedFrom, bitAt_cons, within, Nat.add_comm r]
      have fitted := writes_fit _ _ inside (by omega) bits
      rw [← whole] at fitted
      exact fitted
  · next more =>
      cases rest with
      | nil =>
        simp at source
        omega
      | cons sb' rest =>
        have fitted := writes_fit _ _ inside (by omega) fun k (lt : k < (e - 1) % 8 + 1) =>
          shifted_bits sb sb' small.le (by omega) d rest
        rw [← whole] at fitted
        exact fitted

theorem loopRight_writes {sb : Byte} {len : Int} (small : r < 8)
    (before : d ≤ (e - 1) / 8) (pos : 0 < e) (odd : mask7 (len - 1) = ((e - 1) % 8 : Nat))
    (source : e + r ≤ 8 * (d + 1 + rest.length)) (room : e ≤ 8 * bytes.length) :
    Writes (loopRight r ((e - 1) / 8 : Nat) len sb rest d) bytes (8 * d) e
      (shiftedFrom r d (sb :: rest)) := by
  induction rest generalizing sb d bytes with
  | nil =>
    unfold loopRight
    have last : d = (e - 1) / 8 := by
      simp at source
      omega
    rw [if_pos (by rw [last])]
    exact finishRight_writes small last pos odd source room
  | cons sb' rest ih =>
    unfold loopRight
    by_cases last : d = (e - 1) / 8
    · rw [if_pos (by rw [last])]
      exact finishRight_writes small last pos odd source room
    · rw [if_neg (by exact_mod_cast last)]
      dsimp only
      rw [and_whole]
      have inside : d < bytes.length := by omega
      refine (writes_store _ inside fun k lt => shifted_bits sb sb' small.le lt d rest).next
        (fun bytes' length => ?_) (by omega) (by omega)
      simp only [List.length_cons] at source
      refine (ih (d := d + 1) (by omega) (by omega) (by omega)).congr fun p le _ => ?_
      rw [shiftedFrom, shiftedFrom, bitAt_cons sb, if_neg (by omega)]
      congr 1
      omega

theorem pred_natCast (pos : 0 < len) : (len : Int) - 1 = (len - 1 : Nat) := by
  omega

theorem rightablet_writes {fromBits : Bytes} {shft : Nat} (pos : 0 < len)
    (source : shft + len ≤ 8 * fromBits.length) (room : len ≤ 8 * bytes.length) :
    Writes (rightablet fromBits shft len) bytes 0 len fun p => bitAt fromBits (shft + p) := by
  have start : shft / 8 < fromBits.length := by omega
  unfold rightablet
  simp only [pred_natCast pos, byteOf_natCast, wmask7_natCast]
  split
  · next aligned =>
      rw [bytesFrom, if_neg (by omega), Int.toNat_natCast]
      have left : len ≤ 8 * (0 + (fromBits.drop (shft / 8)).length) := by
        rw [List.length_drop]
        omega
      have copied := simpleCopy_writes (Nat.zero_le _) pos (mask7_natCast len) left room
      refine copied.congr fun p _ _ => ?_
      rw [bitAt_drop]
      congr 1
      omega
  · have read : checkSub fromBits (shft / 8 : Nat) = .ok fromBits[shft / 8] := by
      rw [checkSub, if_neg (by omega), Int.toNat_natCast, List.getElem?_eq_getElem start]
    apply Writes.after (a := fromBits[shft / 8]) (by rw [read, outcome_lift])
    have after : bytesFrom fromBits ((shft / 8 : Nat) + 1) = fromBits.drop (shft / 8 + 1) := by
      rw [bytesFrom, if_neg (by omega)]
      rfl
    rw [after]
    have odd : mask7 ((len : Int) - 1) = ((len - 1) % 8 : Nat) := by
      rw [pred_natCast pos, mask7_natCast]
    have left : len + shft % 8 ≤ 8 * (0 + 1 + (fromBits.drop (shft / 8 + 1)).length) := by
      rw [List.length_drop]
      omega
    refine (loopRight_writes (Nat.mod_lt _ (by decide)) (Nat.zero_le _) pos odd left room).congr
      fun p _ _ => ?_
    rw [shiftedFrom, List.getElem_cons_drop, bitAt_drop]
    congr 1
    omega

theorem shiftLeft_bits (b : Byte) (r : Nat) (lt : k < 8) :
    (b <<< r).getLsbD k = (decide (r ≤ k) && b.getLsbD (k - r)) := by
  rw [BitVec.getLsbD_shiftLeft, decide_eq_true lt, Bool.true_and]
  congr 1
  rw [← decide_not]
  exact decide_eq_decide.mpr Nat.not_lt

theorem not_bits (b : Byte) (lt : k < 8) : (~~~b).getLsbD k = !b.getLsbD k := by
  rw [BitVec.getLsbD_not, decide_eq_true lt, Bool.true_and]

theorem sliceCopy_writes {b : Byte} (small : r + len ≤ 8)
    (inside : d < bytes.length) (shft : Nat) (start : shft = 8 * d + r) :
    Writes (sliceCopy (b :: rest) r d len) bytes shft (shft + len)
      fun p => bitAt (b :: rest) (p - shft) := by
  obtain ⟨low, mask⟩ := lobits_ok (Int.natCast_nonneg len) (by omega)
  apply Writes.after (a := low) (by rw [mask, outcome_lift])
  apply Writes.after (a := b) (by rw [checkFirst_cons, outcome_lift])
  apply Writes.after (outcome_fetch inside)
  rw [start, Nat.add_assoc]
  apply writes_part _ inside small
  intro k lt
  simp only [BitVec.getLsbD_or, BitVec.getLsbD_and, not_bits _ lt, shiftLeft_bits _ _ lt]
  rw [lobits_bits mask (by omega)]
  by_cases within : r ≤ k ∧ k - r < len
  · have masked : ((k - r : Nat) : Int) < len := by omega
    have offset : 8 * d + k - (8 * d + r) = k - r := by omega
    rw [if_pos (by omega), bitAt_cons, if_pos (by omega), decide_eq_true masked, offset]
    simp [within.1]
  · have unmasked : (decide (r ≤ k) && decide (((k - r : Nat) : Int) < len)) = false := by
      simp only [Bool.and_eq_false_iff, decide_eq_false_iff_not]
      omega
    rw [if_neg (by omega), unmasked]
    simp

theorem finishLeft_eq (small : r ≤ 8) (last : Int) (sb : Byte) (rest : Bytes) (d : Int) :
    finishLeft r last sb rest d = finishRight (8 - r) (last + 1) sb rest d := by
  unfold finishLeft finishRight
  rw [Nat.sub_sub_self small, add_sub_cancel_right]

theorem loopLeft_eq (small : r ≤ 8) (lastbyte last : Int) (sb : Byte) (rest : Bytes) (d : Int) :
    loopLeft r lastbyte last sb rest d = loopRight (8 - r) lastbyte (last + 1) sb rest d := by
  induction rest generalizing sb d with
  | nil => unfold loopLeft loopRight; rw [finishLeft_eq small]
  | cons b rest ih =>
    unfold loopLeft loopRight
    rw [finishLeft_eq small]
    simp only [ih, Nat.sub_sub_self small]

theorem leftablet_writes {fromBits : Bytes} (shft : Nat)
    (source : len ≤ 8 * fromBits.length) (room : shft + len ≤ 8 * bytes.length) :
    Writes (leftablet fromBits shft len) bytes shft (shft + len)
      fun p => bitAt fromBits (p - shft) := by
  unfold leftablet
  rcases Nat.eq_zero_or_pos len with zero | pos
  · rw [if_pos (by omega), zero]
    exact .nothing bytes shft _
  have last : (shft : Int) + len - 1 = (shft + len - 1 : Nat) := by omega
  rw [if_neg (by omega), last]
  simp only [byteOf_natCast, wmask7_natCast]
  cases fromBits with
  | nil => simp at source; omega
  | cons sb rest =>
    rw [List.length_cons] at source
    have inside : shft / 8 < bytes.length := by omega
    split
    · next aligned =>
        have start : 8 * (shft / 8) = shft := by omega
        have odd : mask7 (len : Int) = ((shft + len) % 8 : Nat) := by
          rw [mask7_natCast]
          omega
        have enough : shft + len ≤ 8 * (shft / 8 + (sb :: rest).length) := by
          rw [List.length_cons]
          omega
        have copied := simpleCopy_writes (by omega) (by omega) odd enough room
        rw [start] at copied
        exact copied
    · next misaligned =>
        split
        · next same =>
            exact sliceCopy_writes (by omega) inside shft (by omega)
        · next differ =>
            have before : shft / 8 + 1 ≤ (shft + len - 1) / 8 := by omega
            obtain ⟨b, fitted, bits⟩ := fit_bits (sb <<< (shft % 8)) bytes[shft / 8]
              (Nat.mod_lt shft (by decide : 8 > 0)).le
            have whole : 8 * (shft / 8) + shft % 8 = shft := Nat.div_add_mod shft 8
            apply Writes.after (a := sb) (by rw [checkFirst_cons, outcome_lift])
            apply Writes.after (outcome_fetch inside)
            apply Writes.after (a := b) (by rw [fitted, outcome_lift])
            have first : Writes (store (shft / 8 : Nat) b) bytes shft (8 * (shft / 8) + 8)
                fun p => bitAt (sb :: rest) (p - shft) := by
              have written := writes_part (fun p => bitAt (sb :: rest) (p - shft)) inside
                (le_refl 8) (a := shft % 8) (b := b) fun k lt => by
                  rw [bits k lt, shiftLeft_bits _ _ lt, bitAt_cons]
                  by_cases below : k < shft % 8
                  · rw [if_pos below, if_neg (by omega)]
                  · rw [if_neg below, if_pos (by omega), if_pos (by omega)]
                    have offset : 8 * (shft / 8) + k - shft = k - shft % 8 := by omega
                    simp [offset, Nat.not_lt.mp below]
              rwa [whole] at written
            refine first.next (fun bytes' length => ?_) (by omega) (by omega)
            rw [loopLeft_eq (by omega)]
            have odd : mask7 (((shft + len - 1 : Nat) : Int) + 1 - 1) =
                ((shft + len - 1) % 8 : Nat) := by
              rw [add_sub_cancel_right, mask7_natCast]
            have left : shft + len + (8 - shft % 8) ≤ 8 * (shft / 8 + 1 + 1 + rest.length) := by
              omega
            refine (loopRight_writes (by omega) before (by omega) odd left (by omega)).congr
              fun p le _ => ?_
            rw [shiftedFrom]
            congr 1
            omega

theorem cpy_stores (rest : Bytes) (i : Nat) (bytes : Bytes) :
    ∃ r bytes', outcome (cpy rest i) bytes = (r, bytes') ∧ bytes'.length = bytes.length ∧
      ∀ p, bitAt bytes' p =
        if 8 * i ≤ p ∧ p < 8 * min (i + rest.length) bytes.length then bitAt rest (p - 8 * i)
        else bitAt bytes p := by
  induction rest generalizing i bytes with
  | nil =>
    refine ⟨_, bytes, rfl, rfl, fun p => ?_⟩
    rw [if_neg (by simp; omega)]
  | cons b rest ih =>
    unfold cpy
    by_cases inside : i < bytes.length
    · obtain ⟨r, bytes', run, length, bits⟩ := ih (i + 1) (bytes.set i b)
      refine ⟨r, bytes', (outcome_bind_ok (outcome_store inside b)).trans run,
        length.trans (List.length_set ..), fun p => ?_⟩
      rw [bits p, bitAt_set inside, List.length_set, List.length_cons, bitAt_cons]
      by_cases here : p / 8 = i
      · have position : p % 8 = p - 8 * i := by omega
        rw [if_neg (by omega), if_pos here, if_pos (by omega), if_pos (by omega), position]
      · rw [if_neg here]
        by_cases later : 8 * (i + 1) ≤ p ∧ p < 8 * min (i + 1 + rest.length) bytes.length
        · rw [if_pos later, if_pos (by omega), if_neg (by omega), Nat.mul_succ, Nat.sub_add_eq]
        · rw [if_neg later, if_neg (by omega)]
    · have stopped : outcome (store i b) bytes = (.error .subscript, bytes) :=
        outcome_store_error (by omega) b
      refine ⟨.error .subscript, bytes, by rw [outcome_bind, stopped], rfl, fun p => ?_⟩
      rw [if_neg (by omega)]

theorem copybits_writes (source bytes : Bytes) :
    Writes (copybits source) bytes 0 (8 * min source.length bytes.length) (bitAt source) := by
  obtain ⟨r, bytes', run, length, bits⟩ := cpy_stores source 0 bytes
  rw [Nat.cast_zero] at run
  refine ⟨bytes', ?_, length, fun p => ?_⟩
  · unfold copybits untilRaised
    rw [outcome_tryCatch, run]
    cases r <;> rfl
  · rw [bits p, Nat.zero_add]
    rfl

end Loops

/-- A vector of as many bits as it says, whatever stands in the padding of its last byte. -/
structure BoolVector.Sized (v : BoolVector) : Prop where
  nonneg : 0 ≤ v.nbits
  whole : (v.bits.length : Int) = sizeOf v.nbits
  short : (v.bits.length : Int) ≤ maximumVectorLength

theorem BoolVector.Sized.enough (sized : v.Sized) : v.nbits.toNat ≤ 8 * v.bits.length := by
  have bounds := sizeOf_bounds v.nbits
  rw [← sized.whole] at bounds
  omega

theorem bitOf_bitAt (sized : v.Sized) (lt : (p : Int) < v.nbits) :
    bitOf v p = .ok (bitAt v.bits p) := by
  have enough := sized.enough
  have inside : p / 8 < v.bits.length := by omega
  have parts : (p : Int) = 8 * (p / 8 : Nat) + (p % 8 : Nat) := by omega
  have read := bitOf_eq (List.getElem?_eq_getElem inside) (Nat.mod_lt p (by decide))
    (by rw [← parts]; exact lt)
  rw [← parts, ← bitAt_eq_getElem inside (Nat.mod_lt p (by decide)), Nat.div_add_mod] at read
  exact read

/-- Unless the vector is too long, one of `n` bits is returned, with the bits `bit`. -/
def Makes (result : Except Raised BoolVector) (n : Int) (bit : Nat → Except Raised Bool) : Prop :=
  sizeOf n ≤ maximumVectorLength →
    ∃ v, result = .ok v ∧ v.nbits = n ∧ v.Sized ∧ ∀ p : Nat, (p : Int) < n → bitOf v p = bit p

def Fills (write : Write Unit) (n : Nat) (bit : Nat → Except Raised Bool) : Prop :=
  ∀ bytes : Bytes, n ≤ 8 * bytes.length → (bytes.length : Int) = sizeOf n →
    (∀ p, bitAt bytes p = false) → ∃ bytes', outcome write bytes = (.ok (), bytes') ∧ bytes'.length = bytes.length ∧
      ∀ p < n, .ok (bitAt bytes' p) = bit p

theorem buildOn_final {n : Int} {size : Nat} {write : Write Unit}
    (whole : (size : Int) = sizeOf n) (allowed : (size : Int) ≤ maximumVectorLength)
    (run : outcome write (List.replicate size 0) = (.ok (), bytes)) :
    buildOn n 0 write = .ok ⟨n, bytes⟩ := by
  have made : makeBytes (sizeOf n) 0 = .ok (List.replicate size 0) := by
    rw [makeBytes, if_neg (by omega), ← whole, Int.toNat_natCast]
  have written : final write (List.replicate size 0) = .ok bytes := by
    unfold final
    rw [run]
  unfold buildOn
  rw [made]
  simp only [bind, Except.bind, written]
  rfl

theorem Fills.buildOn {write : Write Unit} {bit : Nat → Except Raised Bool}
    (fills : Fills write n bit) : Makes (buildOn n 0 write) n bit := by
  intro allowed
  have bounds := sizeOf_bounds n
  obtain ⟨size, whole⟩ := Int.eq_ofNat_of_zero_le (show 0 ≤ sizeOf n by omega)
  obtain ⟨bytes', run, length, bits⟩ := fills (List.replicate size 0)
    (by rw [List.length_replicate]; omega) (by rw [List.length_replicate, whole])
    (bitAt_replicate size)
  rw [List.length_replicate] at length
  have sized : BoolVector.Sized ⟨n, bytes'⟩ := by
    refine ⟨Int.natCast_nonneg n, ?_, ?_⟩ <;> simp only [length] <;> omega
  refine ⟨⟨n, bytes'⟩, buildOn_final whole.symm (by omega) run, rfl, sized, fun p lt => ?_⟩
  rw [bitOf_bitAt sized lt]
  exact bits p (by omega)

theorem build_eq_buildOn (write : Write Unit) : build n write = buildOn n 0 write := by
  unfold build buildOn makeRwVector
  split
  · next zero =>
      have made : makeBytes (sizeOf n) 0 = .ok [] := by
        rw [zero]
        rfl
      rw [made, zero]
      rfl
  · simp only [bind_assoc]
    rfl

theorem BoolVector.Sized.toNat (sized : v.Sized) : (v.nbits.toNat : Int) = v.nbits :=
  Int.toNat_of_nonneg sized.nonneg

theorem BoolVector.Sized.read (sized : v.Sized) (lt : p < v.nbits.toNat) :
    .ok (bitAt v.bits p) = bitOf v p := by
  rw [bitOf_bitAt sized (by omega)]

theorem mkCopy_makes (sized : v.Sized) : Makes (mkCopy v) v.nbits (bitOf v ·) := by
  unfold mkCopy
  rw [← sized.toNat, build_eq_buildOn]
  apply Fills.buildOn
  intro bytes room _ _
  obtain ⟨bytes', run, length, bits⟩ := copybits_writes v.bits bytes
  refine ⟨bytes', run, length, fun p lt => ?_⟩
  have enough := sized.enough
  rw [bits p, if_pos (by omega), sized.read lt]

theorem lshift_makes (sized : v.Sized) (k : Nat) :
    Makes (lshift v k) (v.nbits + k) fun p => if p < k then .ok false else bitOf v (p - k : Nat) := by
  unfold lshift
  rw [if_neg (by omega)]
  split
  · next zero =>
      obtain rfl : k = 0 := by exact_mod_cast zero
      rw [Nat.cast_zero, add_zero]
      exact mkCopy_makes sized
  · rw [← sized.toNat, ← Nat.cast_add]
    apply Fills.buildOn
    intro bytes room _ zeros
    obtain ⟨bytes', run, length, bits⟩ :=
      leftablet_writes k sized.enough (show k + v.nbits.toNat ≤ 8 * bytes.length by omega)
    refine ⟨bytes', run, length, fun p lt => ?_⟩
    rw [bits p]
    dsimp only
    split
    · next past => rw [if_neg (by omega), sized.read (by omega)]
    · next low => rw [if_pos (by omega), zeros p]

theorem append_makes {a b : BoolVector} (sizedA : a.Sized) (sizedB : b.Sized) :
    Makes (append a b) (a.nbits + b.nbits) fun p =>
      if p < b.nbits.toNat then bitOf b p else bitOf a (p - b.nbits.toNat : Nat) := by
  unfold append
  rw [← sizedA.toNat, ← sizedB.toNat, ← Nat.cast_add]
  apply Fills.buildOn
  intro bytes room _ _
  obtain ⟨bytes', run, length, bits⟩ := copybits_writes b.bits bytes
  obtain ⟨bytes'', run', length', bits'⟩ := leftablet_writes b.nbits.toNat sizedA.enough
    (show b.nbits.toNat + a.nbits.toNat ≤ 8 * bytes'.length by omega)
  refine ⟨bytes'', (outcome_bind_ok run).trans run', length'.trans length, fun p lt => ?_⟩
  have enough := sizedB.enough
  rw [bits' p]
  simp only [Int.toNat_natCast]
  by_cases low : p < b.nbits.toNat
  · rw [if_pos low, if_neg (by omega), bits p, if_pos (by omega), sizedB.read low]
  · rw [if_neg low, if_pos (by omega), sizedA.read (by omega)]

def catBit : List BoolVector → Nat → Except Raised Bool
  | [], _ => .error .subscript
  | v :: tl, p => if p < v.nbits.toNat then bitOf v p else catBit tl (p - v.nbits.toNat)

def totalBits (l : List BoolVector) : Nat := (l.map fun v => v.nbits.toNat).sum

theorem totalBits_eq {l : List BoolVector} (sized : ∀ v ∈ l, v.Sized) :
    (l.map BoolVector.nbits).sum = (totalBits l : Int) := by
  induction l with
  | nil => rfl
  | cons v l ih =>
    have rest := ih fun v' mem => sized v' (List.mem_cons_of_mem _ mem)
    have first := (sized v (List.mem_cons_self ..)).toNat
    simp only [totalBits, List.map_cons, List.sum_cons] at rest ⊢
    rw [rest, Nat.cast_add, first]

theorem catCpy_fills {tl : List BoolVector} (sized : ∀ v ∈ tl, v.Sized) (shft : Nat) (bytes : Bytes)
    (room : shft + totalBits tl ≤ 8 * bytes.length) :
    ∃ bytes', outcome (catCpy tl shft) bytes = (.ok (), bytes') ∧ bytes'.length = bytes.length ∧
      ∀ p < shft + totalBits tl, .ok (bitAt bytes' p) =
        if p < shft then .ok (bitAt bytes p) else catBit tl (p - shft) := by
  induction tl generalizing shft bytes with
  | nil => exact ⟨bytes, rfl, rfl, fun p lt => by rw [if_pos (by exact lt)]⟩
  | cons v tl ih =>
    have sizedV := sized v (List.mem_cons_self ..)
    simp only [totalBits, List.map_cons, List.sum_cons] at room ih ⊢
    obtain ⟨bytes', run, length, bits⟩ := leftablet_writes shft sizedV.enough
      (show shft + v.nbits.toNat ≤ 8 * bytes.length by omega)
    obtain ⟨bytes'', run', length', bits'⟩ := ih (fun v' mem => sized v' (List.mem_cons_of_mem _ mem))
      (shft + v.nbits.toNat) bytes' (by omega)
    rw [sizedV.toNat] at run
    rw [Nat.cast_add, sizedV.toNat] at run'
    refine ⟨bytes'', (outcome_bind_ok run).trans run', length'.trans length, fun p lt => ?_⟩
    rw [bits' p (by omega), bits p, catBit]
    by_cases low : p < shft
    · rw [if_pos (by omega), if_neg (by omega), if_pos low]
    · rw [if_neg low]
      by_cases within : p < shft + v.nbits.toNat
      · rw [if_pos within, if_pos (by omega), if_pos (by omega), sizedV.read (by omega)]
      · rw [if_neg within, if_neg (by omega), Nat.sub_add_eq]

theorem cat_makes {l : List BoolVector} (sized : ∀ v ∈ l, v.Sized) :
    Makes (cat l) (totalBits l) (catBit l) := by
  match l with
  | [] =>
    intro _
    refine ⟨⟨0, []⟩, rfl, rfl, ⟨le_refl 0, rfl, by decide⟩, fun p lt => ?_⟩
    exact absurd lt (by simp [totalBits])
  | [v] =>
    have sizedV := sized v (List.mem_cons_self ..)
    have total : (totalBits [v] : Int) = v.nbits := by
      simp [totalBits, sizedV.nonneg]
    rw [total]
    intro allowed
    obtain ⟨v', made, nbits, sized', bits⟩ := mkCopy_makes sizedV allowed
    refine ⟨v', made, nbits, sized', fun p lt => ?_⟩
    rw [bits p lt, catBit, if_pos (by omega)]
  | v :: w :: tl =>
    have sizedV := sized v (List.mem_cons_self ..)
    unfold cat
    dsimp only
    rw [totalBits_eq sized]
    apply Fills.buildOn
    intro bytes room _ _
    obtain ⟨bytes', run, length, bits⟩ := copybits_writes v.bits bytes
    have total : totalBits (v :: w :: tl) = v.nbits.toNat + totalBits (w :: tl) := rfl
    obtain ⟨bytes'', run', length', bits'⟩ := catCpy_fills
      (fun v' (mem : v' ∈ w :: tl) => sized v' (List.mem_cons_of_mem _ mem)) v.nbits.toNat bytes'
      (by omega)
    rw [sizedV.toNat] at run'
    refine ⟨bytes'', (outcome_bind_ok run).trans run', length'.trans length, fun p lt => ?_⟩
    have enough := sizedV.enough
    have first : catBit (v :: w :: tl) p =
        if p < v.nbits.toNat then bitOf v p else catBit (w :: tl) (p - v.nbits.toNat) := rfl
    rw [bits' p (by omega), bits p, first]
    by_cases low : p < v.nbits.toNat
    · rw [if_pos low, if_pos low, if_pos (by omega), sizedV.read low]
    · rw [if_neg low, if_neg low]

theorem rightablet_makes (sized : v.Sized) {k : Nat} (pos : 0 < n)
    (le : k + n ≤ v.nbits.toNat) :
    Makes (buildOn n 0 (rightablet v.bits k n)) n fun p => bitOf v (k + p : Nat) := by
  apply Fills.buildOn
  intro bytes room _ _
  have enough := sized.enough
  obtain ⟨bytes', run, length, bits⟩ :=
    rightablet_writes pos (show k + n ≤ 8 * v.bits.length by omega) room
  refine ⟨bytes', run, length, fun p lt => ?_⟩
  rw [bits p, if_pos (by omega), sized.read (by omega)]

theorem makeRwVector_zero (bit : Nat → Except Raised Bool) : Makes (makeRwVector 0 false) 0 bit :=
  fun _ => ⟨⟨0, []⟩, rfl, rfl, ⟨le_refl 0, rfl, by decide⟩, fun p lt => by omega⟩

theorem slice_makes (sized : v.Sized) (le : i + n ≤ v.nbits.toNat) :
    Makes (slice v i n) n fun p => bitOf v (i + p : Nat) := by
  unfold slice
  rcases Nat.eq_zero_or_pos n with rfl | pos
  · exact makeRwVector_zero _
  · rw [if_neg (by omega)]
    exact rightablet_makes sized pos le

theorem rshift_makes (sized : v.Sized) (k : Nat) :
    Makes (rshift v k) (v.nbits.toNat - k : Nat) fun p => bitOf v (k + p : Nat) := by
  have toNat := sized.toNat
  unfold rshift
  rw [if_neg (by omega)]
  split
  · next zero =>
      obtain rfl : k = 0 := by exact_mod_cast zero
      simp only [Nat.zero_add, Nat.sub_zero, toNat]
      exact mkCopy_makes sized
  · split
    · next past =>
        rw [Nat.sub_eq_zero_of_le (by omega)]
        exact makeRwVector_zero _
    · next within =>
        have rest : v.nbits - k = (v.nbits.toNat - k : Nat) := by omega
        rw [rest]
        exact rightablet_makes sized (by omega) (by omega)

/-- Shifts, slices and concatenations of vectors of any length move every bit to its place. Of
`a @ b`, `b` makes the low bits, which are printed on the right. -/
theorem copies_exact {v : BoolVector} (sized : v.Sized) :
    (∀ k : Nat, Makes (lshift v k) (v.nbits + k) fun p =>
      if p < k then .ok false else bitOf v (p - k : Nat)) ∧
    (∀ k : Nat, Makes (rshift v k) (v.nbits.toNat - k : Nat) fun p => bitOf v (k + p : Nat)) ∧
    (∀ k < 0, lshift v k = .error (badArg "lshift" "negative shift") ∧
      rshift v k = .error (badArg "rshift" "negative shift")) ∧
    (∀ i n : Nat, i + n ≤ v.nbits.toNat →
      Makes (slice v i n) n (fun p => bitOf v (i + p : Nat)) ∧
      Makes (extract v i (some n)) n (fun p => bitOf v (i + p : Nat))) ∧
    (∀ i : Nat, i ≤ v.nbits.toNat →
      Makes (extract v i none) (v.nbits.toNat - i : Nat) fun p => bitOf v (i + p : Nat)) ∧
    (∀ w : BoolVector, w.Sized → Makes (append v w) (v.nbits + w.nbits) fun p =>
      if p < w.nbits.toNat then bitOf w p else bitOf v (p - w.nbits.toNat : Nat)) ∧
    (∀ l : List BoolVector, (∀ w ∈ l, w.Sized) → Makes (cat l) (totalBits l) (catBit l)) := by
  have toNat := sized.toNat
  refine ⟨lshift_makes sized, rshift_makes sized, fun k negative => ⟨if_pos negative, if_pos negative⟩,
    fun i n le => ⟨slice_makes sized le, ?_⟩, fun i le => ?_, fun w => append_makes sized,
    fun l => cat_makes⟩
  · unfold extract
    dsimp only
    rw [if_neg (by omega)]
    exact slice_makes sized le
  · have rest : v.nbits - i = (v.nbits.toNat - i : Nat) := by omega
    unfold extract
    dsimp only
    rw [if_neg (by omega), rest]
    exact slice_makes sized (by omega)

theorem copies_exact_ten : (⟨10, [0xff, 0x03]⟩ : BoolVector).Sized ∧
    ∃ w, lshift ⟨10, [0xff, 0x03]⟩ 3 = .ok w ∧ w.nbits = 13 ∧ bitOf w 2 = .ok false ∧
      bitOf w 3 = .ok true := by
  have sized : (⟨10, [0xff, 0x03]⟩ : BoolVector).Sized := ⟨by decide, by decide, by decide⟩
  obtain ⟨w, made, nbits, -, bits⟩ := (copies_exact sized).1 3 (by decide)
  exact ⟨sized, w, made, nbits, bits 2 (by decide), bits 3 (by decide)⟩

end Mythryl.RwBoolVector
