import Mythryl.RwBoolVector.Copies

/-! # Blends are pointwise -/

namespace Mythryl.RwBoolVector
open RaisingState

def visible (v : BoolVector) (p : Nat) : Bool := decide ((p : Int) < v.nbits) && bitAt v.bits p

variable {p n i : Nat} {v a b : BoolVector} {rest bytes : Bytes} {bit bit' : Nat → Bool}
  {write : Write Unit}

theorem visible_inside (lt : (p : Int) < v.nbits) : visible v p = bitAt v.bits p := by
  simp [visible, lt]

theorem visible_past (past : v.nbits ≤ p) : visible v p = false := by
  simp [visible, past]

theorem bitAt_getElem? (bytes : Bytes) (p : Nat) :
    bitAt bytes p = ((bytes[p / 8]?).map fun b => b.getLsbD (p % 8)).getD false := by
  unfold bitAt
  rw [List.getD_eq_getElem?_getD]
  cases bytes[p / 8]? <;> simp

theorem andCopy_eq (rest rest' : Bytes) (i : Int) :
    andCopy rest rest' i = cpy (List.zipWith (· &&& ·) rest rest') i := by
  fun_induction andCopy rest rest' i with
  | case1 b rest b' rest' i ih => rw [List.zipWith_cons_cons, cpy, ih]
  | case2 rest rest' i notBoth =>
    cases rest with
    | nil => rfl
    | cons b rest =>
      cases rest' with
      | nil => rfl
      | cons b' rest' => exact (notBoth _ _ _ _ rfl rfl).elim

theorem bitAt_and (bytes bytes' : Bytes) (p : Nat) :
    bitAt (List.zipWith (· &&& ·) bytes bytes') p = (bitAt bytes p && bitAt bytes' p) := by
  simp only [bitAt_getElem?, List.getElem?_zipWith]
  cases bytes[p / 8]? <;> cases bytes'[p / 8]? <;> simp

/-- What `or_blend` writes, while the second vector is not the longer one. -/
def orBytes (f : Byte → Byte → Byte) : Bytes → Bytes → Bytes
  | rest, [] => rest
  | b :: rest, b' :: rest' => f b b' :: orBytes f rest rest'
  | [], _ :: _ => []

theorem orCopy_eq (f : Byte → Byte → Byte) (rest rest' : Bytes) (i : Int) :
    orCopy f rest rest' i = cpy (orBytes f rest rest') i := by
  fun_induction orCopy f rest rest' i with
  | case1 rest i => cases rest <;> rfl
  | case2 b rest b' rest' i ih => rw [orBytes, cpy, ih]
  | case3 rest' i nonempty =>
    cases rest' with
    | nil => exact (nonempty rfl).elim
    | cons b' rest' => rfl

theorem bitAt_orBytes {f : Byte → Byte → Byte} {g : Bool → Bool → Bool}
    (pointwise : ∀ b b' k, (f b b').getLsbD k = g (b.getLsbD k) (b'.getLsbD k))
    (zero : ∀ x, g x false = x) {rest' : Bytes} (le : rest'.length ≤ rest.length) (p : Nat) :
    bitAt (orBytes f rest rest') p = g (bitAt rest p) (bitAt rest' p) := by
  fun_induction orBytes f rest rest' generalizing p with
  | case1 rest => rw [bitAt_nil, zero]
  | case2 b rest b' rest' ih =>
    simp only [bitAt_cons, pointwise]
    split
    · rfl
    · exact ih (Nat.le_of_succ_le_succ le) _
  | case3 => cases le

theorem zeroLoop_eq (rest : Bytes) (i : Int) :
    zeroLoop rest i = cpy (List.replicate rest.length 0) i := by
  induction rest generalizing i with
  | nil => rfl
  | cons b rest ih => rw [zeroLoop, ih, List.length_cons, List.replicate_succ, cpy]

theorem trim_returns (whole : (bytes.length : Int) = sizeOf n) :
    ∃ bytes', outcome (trim n) bytes = (.ok (), bytes') ∧ bytes'.length = bytes.length ∧
      ∀ p < n, bitAt bytes' p = bitAt bytes p := by
  have bounds := sizeOf_bounds n
  unfold trim
  rw [mask7_natCast]
  rcases Nat.eq_zero_or_pos (n % 8) with even | odd
  · rw [even]
    exact ⟨bytes, rfl, rfl, fun p _ => rfl⟩
  · have last : (bytes.length : Int) - 1 = (bytes.length - 1 : Nat) := by omega
    have inside : bytes.length - 1 < bytes.length := by omega
    have small : ((n % 8 : Nat) : Int) ≤ 8 := by omega
    obtain ⟨low, mask⟩ := lobits_ok (Int.natCast_nonneg (n % 8)) small
    split
    · omega
    · refine ⟨bytes.set (bytes.length - 1) (bytes[bytes.length - 1] &&& low), ?_,
        List.length_set .., fun p lt => ?_⟩
      · rw [outcome_bind_ok (outcome_get bytes), last, outcome_bind_ok (outcome_fetch inside), mask]
        exact outcome_store inside _
      · rw [bitAt_set inside]
        split
        · next same =>
            have whole : 8 * (bytes.length - 1) + p % 8 = p := by omega
            rw [BitVec.getLsbD_and, lobits_bits mask (Nat.mod_lt p (by decide)),
              decide_eq_true (by omega), Bool.and_true,
              ← bitAt_eq_getElem inside (Nat.mod_lt p (by decide)), whole]
        · rfl

theorem blend_fills (source : Bytes) (n : Nat) :
    Fills (do copybits source; trim n) n fun p => .ok (bitAt source p) := by
  intro bytes room whole zeros
  obtain ⟨bytes', run, length, bits⟩ := copybits_writes source bytes
  obtain ⟨bytes'', run', length', bits'⟩ := trim_returns (length ▸ whole)
  refine ⟨bytes'', (outcome_bind_ok run).trans run', length'.trans length, fun p lt => ?_⟩
  rw [bits' p lt, bits p]
  split
  · rfl
  · dsimp only
    rw [zeros p, bitAt_past (show 8 * source.length ≤ p by omega)]

theorem newblend_makes (source : Bytes) (n : Nat) (ba ba' : BoolVector)
    {blendf : BoolVector → BoolVector → Int → Write Unit}
    (copies : blendf ba ba' n = (do copybits source; trim n)) :
    Makes (newblend blendf ba ba' n) n fun p => .ok (bitAt source p) := by
  unfold newblend
  rw [copies, build_eq_buildOn]
  exact (blend_fills source n).buildOn

theorem bitwiseAnd_makes (a b : BoolVector) (n : Nat) :
    Makes (bitwiseAnd a b n) n fun p => .ok (bitAt a.bits p && bitAt b.bits p) := by
  simp only [← bitAt_and]
  apply newblend_makes
  rw [andBlend, andCopy_eq, copybits]

theorem length_le_of_nbits_le (sizedA : a.Sized) (sizedB : b.Sized)
    (le : b.nbits ≤ a.nbits) : b.bits.length ≤ a.bits.length := by
  have wholeA := sizedA.whole
  have wholeB := sizedB.whole
  unfold sizeOf at wholeA wholeB
  omega

theorem orBlend_makes {f : Byte → Byte → Byte} {g : Bool → Bool → Bool}
    (pointwise : ∀ b b' k, (f b b').getLsbD k = g (b.getLsbD k) (b'.getLsbD k))
    (zero : ∀ x, g x false = x) (comm : ∀ x y, g x y = g y x)
    (sizedA : a.Sized) (sizedB : b.Sized) (n : Nat) :
    Makes (newblend (orBlend f) a b n) n fun p => .ok (g (bitAt a.bits p) (bitAt b.bits p)) := by
  have ordered {v v' : BoolVector} (inOrder : order a b = (v, v')) (le : v'.nbits ≤ v.nbits)
      (sized : v.Sized) (sized' : v'.Sized) : Makes (newblend (orBlend f) a b n) n
        fun p => .ok (g (bitAt v.bits p) (bitAt v'.bits p)) := by
    simp only [← bitAt_orBytes pointwise zero (length_le_of_nbits_le sized sized' le)]
    apply newblend_makes
    rw [orBlend, inOrder]
    dsimp only
    rw [orCopy_eq, copybits]
  by_cases le : a.nbits ≥ b.nbits
  · exact ordered (if_pos le) le sizedA sizedB
  · simp only [comm (bitAt a.bits _)]
    exact ordered (if_neg le) (not_le.mp le).le sizedB sizedA

def Becomes (write : Write Unit) (v : BoolVector) (bit : Nat → Bool) : Prop :=
  ∃ bytes, outcome write v.bits = (.ok (), bytes) ∧ BoolVector.Sized ⟨v.nbits, bytes⟩ ∧
    ∀ p : Nat, (p : Int) < v.nbits → bitOf ⟨v.nbits, bytes⟩ p = .ok (bit p)

theorem becomes_of_bits (sized : v.Sized)
    (writes : ∃ bytes, outcome write v.bits = (.ok (), bytes) ∧ bytes.length = v.bits.length ∧
      ∀ p < v.nbits.toNat, bitAt bytes p = bit p) : Becomes write v bit := by
  obtain ⟨bytes, run, length, bits⟩ := writes
  have same : BoolVector.Sized ⟨v.nbits, bytes⟩ :=
    ⟨sized.nonneg, length ▸ sized.whole, length ▸ sized.short⟩
  refine ⟨bytes, run, same, fun p lt => ?_⟩
  rw [bitOf_bitAt same lt, bits p (by omega)]

theorem unionLoop_writes {rest' : Bytes} {bnd : Nat} (bytes : Bytes) (le : i ≤ bnd)
    (room : bnd ≤ bytes.length) (left : bnd ≤ i + rest.length) (right : bnd ≤ i + rest'.length) :
    Writes (unionLoop bnd rest rest' i) bytes (8 * i) (8 * bnd)
      fun p => bitAt rest (p - 8 * i) || bitAt rest' (p - 8 * i) := by
  induction rest generalizing rest' i bytes with
  | nil =>
    obtain rfl : i = bnd := by
      simp at left
      omega
    unfold unionLoop
    rw [if_pos rfl]
    exact .nothing bytes _ _
  | cons b rest ih =>
    unfold unionLoop
    by_cases last : i = bnd
    · rw [if_pos (by exact_mod_cast last), last]
      exact .nothing bytes _ _
    · rw [if_neg (by exact_mod_cast last)]
      cases rest' with
      | nil =>
        simp at right
        omega
      | cons b' rest' =>
        simp only [List.length_cons] at left right
        have written := writes_store
          (fun p => bitAt (b :: rest) (p - 8 * i) || bitAt (b' :: rest') (p - 8 * i))
          (show i < bytes.length by omega) (b := b ||| b') fun k lt => by
            simp [bitAt_cons, lt]
        refine written.next (fun bytes' length => ?_) (by omega) (by omega)
        refine (ih bytes' (show i + 1 ≤ bnd by omega) (by omega) (by omega) (by omega)).congr
          fun p ge _ => ?_
        rw [bitAt_cons, if_neg (by omega), bitAt_cons, if_neg (by omega), Nat.mul_succ,
          Nat.sub_add_eq]

theorem union_becomes (sized : a.Sized) (b : BoolVector) :
    Becomes (union a b) a fun p => bitAt a.bits p || bitAt b.bits p := by
  apply becomes_of_bits sized
  unfold union
  dsimp only
  split
  · next le =>
      obtain ⟨bytes, run, length, bits⟩ := unionLoop_writes a.bits (Nat.zero_le a.bits.length)
        (le_refl _) (show a.bits.length ≤ 0 + a.bits.length by omega)
        (show a.bits.length ≤ 0 + b.bits.length by omega)
      have whole : (bytes.length : Int) = sizeOf (a.nbits.toNat : Nat) := by
        rw [length, sized.whole, sized.toNat]
      obtain ⟨bytes', run', length', bits'⟩ := trim_returns whole
      rw [sized.toNat] at run'
      refine ⟨bytes', (outcome_bind_ok run).trans run', length'.trans length, fun p lt => ?_⟩
      have enough := sized.enough
      rw [bits' p lt, bits p, if_pos (by omega)]
      rfl
  · next gt =>
      have gt' : b.bits.length < a.bits.length := by exact_mod_cast not_le.mp gt
      obtain ⟨bytes, run, length, bits⟩ := unionLoop_writes a.bits (Nat.zero_le b.bits.length)
        gt'.le (show b.bits.length ≤ 0 + a.bits.length by omega)
        (show b.bits.length ≤ 0 + b.bits.length by omega)
      refine ⟨bytes, run, length, fun p lt => ?_⟩
      rw [bits p]
      split
      · rfl
      · rw [bitAt_past (show 8 * b.bits.length ≤ p by omega), Bool.or_false]

theorem andBlend_bytes (a b : BoolVector) (n : Int) :
    andBlend a b (n * 8) = copybits (List.zipWith (· &&& ·) a.bits b.bits) := by
  unfold andBlend
  rw [trim_bytes, andCopy_eq]
  exact bind_pure _

theorem zeroLoop_writes (rest : Bytes)
    (room : i + rest.length = bytes.length) :
    Writes (untilRaised (zeroLoop rest i)) bytes (8 * i) (8 * bytes.length) fun _ => false := by
  rw [zeroLoop_eq]
  obtain ⟨r, bytes', run, length, bits⟩ := cpy_stores (List.replicate rest.length 0) i bytes
  refine ⟨bytes', ?_, length, fun p => ?_⟩
  · unfold untilRaised
    rw [outcome_tryCatch, run]
    cases r <;> rfl
  · rw [bits p, List.length_replicate, room, min_self, bitAt_replicate]

theorem intersection_becomes (sized : a.Sized) (b : BoolVector) :
    Becomes (intersection a b) a fun p => bitAt a.bits p && bitAt b.bits p := by
  have enough := sized.enough
  obtain ⟨bytes, run, length, bits⟩ :=
    copybits_writes (List.zipWith (· &&& ·) a.bits b.bits) a.bits
  rw [List.length_zipWith] at bits
  apply becomes_of_bits sized
  unfold intersection
  simp only [andBlend_bytes]
  split
  · next le =>
      refine ⟨bytes, run, length, fun p lt => ?_⟩
      rw [bits p, if_pos (by omega), bitAt_and]
  · next gt =>
      have rest : bytesFrom a.bits b.bits.length = a.bits.drop b.bits.length := by
        rw [bytesFrom, if_neg (by omega), Int.toNat_natCast]
      rw [rest]
      have room : b.bits.length + (a.bits.drop b.bits.length).length = bytes.length := by
        rw [List.length_drop]
        omega
      obtain ⟨bytes', run', length', bits'⟩ := zeroLoop_writes (a.bits.drop b.bits.length) room
      refine ⟨bytes', (outcome_bind_ok run).trans run', length'.trans length, fun p lt => ?_⟩
      rw [bits' p, bits p]
      by_cases past : 8 * b.bits.length ≤ p
      · rw [if_pos (by omega), bitAt_past past, Bool.and_false]
      · rw [if_neg (by omega), if_pos (by omega), bitAt_and]

theorem flp_writes (before : i ≤ n / 8)
    (target : (bytes.length : Int) = sizeOf n) (source : i + rest.length = bytes.length) :
    Writes (flp (n / 8 : Nat) (n % 8 : Nat) rest i) bytes (8 * i) (8 * bytes.length)
      fun p => decide (p < n) && !bitAt rest (p - 8 * i) := by
  have bounds := sizeOf_bounds n
  induction rest generalizing i bytes with
  | nil =>
    have last : i = n / 8 := by
      simp at source
      omega
    have even : n % 8 = 0 := by
      simp at source
      omega
    unfold flp
    rw [if_pos (by exact_mod_cast last), even]
    simp only [List.length_nil, Nat.add_zero] at source
    rw [source]
    exact .nothing bytes _ _
  | cons b rest ih =>
    simp only [List.length_cons] at source
    unfold flp
    by_cases last : i = n / 8
    · have odd : ((n % 8 : Nat) : Int) ≠ 0 := by omega
      have alone : 8 * bytes.length = 8 * i + 8 := by omega
      obtain ⟨low, mask⟩ := lobits_ok (Int.natCast_nonneg (n % 8)) (by omega)
      rw [if_pos (by exact_mod_cast last), if_pos odd, mask, alone]
      refine writes_store _ (by omega) fun k lt => ?_
      rw [BitVec.getLsbD_and, lobits_bits mask lt, not_bits b lt, bitAt_cons, if_pos (by omega),
        Nat.add_sub_cancel_left, Bool.and_comm]
      congr 1
      rw [decide_eq_decide]
      omega
    · rw [if_neg (by exact_mod_cast last)]
      have written := writes_store
        (fun p => decide (p < n) && !bitAt (b :: rest) (p - 8 * i))
        (show i < bytes.length by omega) (b := ~~~b &&& 0xff) fun k lt => by
          rw [and_whole, not_bits b lt, bitAt_cons, if_pos (by omega), Nat.add_sub_cancel_left,
            decide_eq_true (by omega), Bool.true_and]
      refine written.next (fun bytes' length => ?_) (by omega) (by omega)
      rw [← length]
      refine (ih (show i + 1 ≤ n / 8 by omega) (length ▸ target) (by omega)).congr fun p ge _ => ?_
      rw [bitAt_cons, if_neg (by omega), Nat.mul_succ, Nat.sub_add_eq]

def Flipped (v : BoolVector) (bytes : Bytes) : Prop :=
  bytes.length = v.bits.length ∧
    ∀ p : Nat, bitAt bytes p = (decide ((p : Int) < v.nbits) && !bitAt v.bits p)

theorem flip_flips (sized : v.Sized) {target : Bytes} (length : target.length = v.bits.length) :
    ∃ bytes, outcome (flip v.nbits v.bits) target = (.ok (), bytes) ∧ Flipped v bytes := by
  have whole := sized.whole
  have enough := sized.enough
  rw [← sized.toNat] at whole
  have source : 0 + v.bits.length = target.length := by omega
  obtain ⟨bytes, run, length', bits⟩ :=
    flp_writes (Nat.zero_le (v.nbits.toNat / 8)) (by rw [length, whole]) source
  rw [← byteOf_natCast, ← mask7_natCast, sized.toNat] at run
  refine ⟨bytes, run, length'.trans length, fun p => ?_⟩
  rw [bits p]
  split
  · dsimp only
    rw [Nat.mul_zero, Nat.sub_zero]
    congr 1
    rw [decide_eq_decide]
    omega
  · rw [bitAt_past (show 8 * target.length ≤ p by omega), decide_eq_false (by omega), Bool.false_and]

theorem bitwiseNot_flips (sized : v.Sized) :
    ∃ bytes, bitwiseNot v = .ok ⟨v.nbits, bytes⟩ ∧ Flipped v bytes := by
  obtain ⟨bytes, run, flipped⟩ := flip_flips sized (List.length_replicate (a := 0))
  refine ⟨bytes, ?_, flipped⟩
  unfold bitwiseNot
  rw [← sized.toNat, build_eq_buildOn, sized.toNat]
  exact buildOn_final sized.whole sized.short run

structure Pointwise (a b : BoolVector) (len : Nat) : Prop where
  and : Makes (bitwiseAnd a b len) len fun p => .ok (visible a p && visible b p)
  or : Makes (bitwiseOr a b len) len fun p => .ok (visible a p || visible b p)
  xor : Makes (bitwiseXor a b len) len fun p => .ok (visible a p ^^ visible b p)
  union : Becomes (union a b) a fun p => visible a p || visible b p
  intersection : Becomes (intersection a b) a fun p => visible a p && visible b p
  complement : ∃ bytes, outcome (complement a) a.bits = (.ok (), bytes) ∧ Flipped a bytes
  not : ∃ bytes, bitwiseNot a = .ok ⟨a.nbits, bytes⟩ ∧ Flipped a bytes

theorem bitwiseOr_makes (sizedA : a.Sized) (sizedB : b.Sized) (len : Nat) :
    Makes (bitwiseOr a b len) len fun p => .ok (bitAt a.bits p || bitAt b.bits p) :=
  orBlend_makes (fun _ _ _ => BitVec.getLsbD_or) Bool.or_false Bool.or_comm sizedA sizedB len

theorem bitwiseXor_makes (sizedA : a.Sized) (sizedB : b.Sized) (len : Nat) :
    Makes (bitwiseXor a b len) len fun p => .ok (bitAt a.bits p ^^ bitAt b.bits p) :=
  orBlend_makes (fun _ _ _ => BitVec.getLsbD_xor) Bool.xor_false Bool.xor_comm sizedA sizedB len

theorem Makes.agree {result : Except Raised BoolVector}
    (allowed : sizeOf n ≤ maximumVectorLength) (makes : Makes result n fun p => .ok (bit p))
    (makes' : Makes result n fun p => .ok (bit' p)) (lt : p < n) : bit p = bit' p := by
  obtain ⟨v, made, -, -, bits⟩ := makes allowed
  obtain ⟨v', made', -, -, bits'⟩ := makes' allowed
  obtain rfl : v = v' := Except.ok.inj (made.symm.trans made')
  have lt' : (p : Int) < n := by exact_mod_cast lt
  exact Except.ok.inj ((bits p lt').symm.trans (bits' p lt'))

theorem Makes.congr {result : Except Raised BoolVector}
    (makes : Makes result n fun p => .ok (bit p)) (same : ∀ p < n, bit p = bit' p) :
    Makes result n fun p => .ok (bit' p) := by
  intro allowed
  obtain ⟨v, made, nbits, sized, bits⟩ := makes allowed
  exact ⟨v, made, nbits, sized, fun p lt =>
    (bits p lt).trans (congrArg Except.ok (same p (by omega)))⟩

theorem Becomes.agree (becomes : Becomes write v bit) (becomes' : Becomes write v bit')
    (lt : (p : Int) < v.nbits) : bit p = bit' p := by
  obtain ⟨bytes, run, -, bits⟩ := becomes
  obtain ⟨bytes', run', -, bits'⟩ := becomes'
  obtain rfl : bytes = bytes' := congrArg Prod.snd (run.symm.trans run')
  exact Except.ok.inj ((bits p lt).symm.trans (bits' p lt))

theorem Becomes.congr
    (becomes : Becomes write v bit) (same : ∀ p : Nat, (p : Int) < v.nbits → bit p = bit' p) :
    Becomes write v bit' := by
  obtain ⟨bytes, run, sized, bits⟩ := becomes
  exact ⟨bytes, run, sized, fun p lt => by rw [bits p lt, same p lt]⟩

theorem visible_of_clear (clear : v.nbits ≤ p → bitAt v.bits p = false) :
    visible v p = bitAt v.bits p := by
  by_cases lt : (p : Int) < v.nbits
  · exact visible_inside lt
  · rw [visible_past (not_lt.mp lt), clear (not_lt.mp lt)]

/-- The operations are pointwise exactly when the padding that they read is zero: in the bytes of
`a`, that below `len`; in the bytes of `b`, that below `len` or the length of `a`. -/
theorem pointwise_iff {a b : BoolVector} (sizedA : a.Sized) (sizedB : b.Sized) {len : Nat}
    (allowed : sizeOf len ≤ maximumVectorLength) : Pointwise a b len ↔
      (∀ p : Nat, a.nbits ≤ p → p < len → bitAt a.bits p = false) ∧
      ∀ p : Nat, b.nbits ≤ p → (p < len ∨ p < a.nbits) → bitAt b.bits p = false := by
  have and' := bitwiseAnd_makes a b len
  have or' := bitwiseOr_makes sizedA sizedB len
  have xor' := bitwiseXor_makes sizedA sizedB len
  have union' := union_becomes sizedA b
  have intersection' := intersection_becomes sizedA b
  constructor
  · intro pointwise
    have clearA (p : Nat) (past : a.nbits ≤ p) (lt : p < len) : bitAt a.bits p = false := by
      have both := pointwise.and.agree allowed and' lt
      have either := pointwise.or.agree allowed or' lt
      rw [visible_past past] at both either
      by_cases lt' : (p : Int) < b.nbits
      · rw [visible_inside lt'] at both either
        revert both either
        cases bitAt a.bits p <;> simp_all
      · rw [visible_past (not_lt.mp lt')] at either
        simp_all
    refine ⟨clearA, fun p past lt => ?_⟩
    by_cases lt' : (p : Int) < a.nbits
    · have both := pointwise.intersection.agree intersection' lt'
      have either := pointwise.union.agree union' lt'
      rw [visible_past past, visible_inside lt'] at both either
      revert both either
      cases bitAt b.bits p <;> simp_all
    · have either := pointwise.or.agree allowed or' (by omega : p < len)
      rw [visible_past past, visible_past (not_lt.mp lt')] at either
      simp_all
  · rintro ⟨clearA, clearB⟩
    have shownA (p : Nat) (lt : p < len ∨ p < a.nbits) : visible a p = bitAt a.bits p :=
      visible_of_clear fun past => clearA p past (by omega)
    have shownB (p : Nat) (lt : p < len ∨ p < a.nbits) : visible b p = bitAt b.bits p :=
      visible_of_clear fun past => clearB p past lt
    exact {
      and := and'.congr fun p lt => by rw [shownA p (.inl lt), shownB p (.inl lt)]
      or := or'.congr fun p lt => by rw [shownA p (.inl lt), shownB p (.inl lt)]
      xor := xor'.congr fun p lt => by rw [shownA p (.inl lt), shownB p (.inl lt)]
      union := union'.congr fun p lt => by rw [shownA p (.inr lt), shownB p (.inr lt)]
      intersection := intersection'.congr fun p lt => by rw [shownA p (.inr lt), shownB p (.inr lt)]
      complement := flip_flips sizedA rfl
      not := bitwiseNot_flips sizedA }

theorem pointwise_iff_clear : Pointwise ⟨5, [0x13]⟩ ⟨10, [0x81, 0x02]⟩ 8 ∧
    (⟨5, [0x13]⟩ : BoolVector).Sized ∧ (⟨10, [0x81, 0x02]⟩ : BoolVector).Sized := by
  have sizedA : (⟨5, [0x13]⟩ : BoolVector).Sized := ⟨by decide, by decide, by decide⟩
  have sizedB : (⟨10, [0x81, 0x02]⟩ : BoolVector).Sized := ⟨by decide, by decide, by decide⟩
  refine ⟨(pointwise_iff sizedA sizedB (by decide)).mpr ⟨fun p ge lt => ?_, fun p ge lt => ?_⟩,
    sizedA, sizedB⟩
  · have range : 5 ≤ p ∧ p < 8 := by simp at ge; omega
    obtain ⟨ge, lt⟩ := range
    interval_cases p <;> rfl
  · simp at ge lt
    omega

/-- The vector of the five bits 0 to 4, told to set bit 7, has a bit that blends of eight bits
return. -/
theorem blend_of_padding :
    ¬ (∀ a b : BoolVector, a.Sized → b.Sized → ∀ len : Nat, sizeOf len ≤ maximumVectorLength →
      Pointwise a b len) ∧ bits 5 [7] = .ok ⟨5, [0x80]⟩ ∧ bits 5 [] = .ok ⟨5, [0x00]⟩ ∧
    bitwiseOr ⟨5, [0x80]⟩ ⟨5, [0x00]⟩ 8 = .ok ⟨8, [0x80]⟩ ∧ bitOf ⟨8, [0x80]⟩ 7 = .ok true := by
  have made : bitwiseOr ⟨5, [0x80]⟩ ⟨5, [0x00]⟩ 8 = .ok ⟨8, [0x80]⟩ := by rfl
  refine ⟨fun claim => ?_, by rfl, by rfl, made, by rfl⟩
  obtain ⟨v, made', -, -, bits⟩ := (claim ⟨5, [0x80]⟩ ⟨5, [0x00]⟩ ⟨by decide, by decide, by decide⟩
    ⟨by decide, by decide, by decide⟩ 8 (by decide)).or (by decide)
  obtain rfl : ⟨8, [0x80]⟩ = v := Except.ok.inj (made.symm.trans made')
  cases bits 7 (by decide)

end Mythryl.RwBoolVector
