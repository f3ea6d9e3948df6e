import Mythryl.LiteralsBytecode.Bytecode
import Mathlib.Logic.Function.Basic

/-! # What a literal expression denotes -/

namespace Mythryl.MakeNextcodeLiteralsBytecodeVector

open MakePackageLiterals

abbrev Env := Codetemp → Option Val

def denoteValue (env : Env) (heap : Heap) : LiteralValue → Option (Heap × Val)
  | .liInt i => some (heap, .taggedInt i)
  | .liString s => some (makeString heap s)
  | .liVar v => (env v).map fun val => (heap, val)

def denoteValues (env : Env) : Heap → List LiteralValue → Option (Heap × List Val)
  | heap, [] => some (heap, [])
  | heap, lit :: r => do
      let (heap, val) ← denoteValue env heap lit
      let (heap, vals) ← denoteValues env heap r
      some (heap, val :: vals)

def makeBlock : BlockKind → Heap → List Val → Heap × Val
  | .liRecord => makeRecord
  | .liVector => makeVector

def denote (realconst : Bytes → Outcome Bytes) :
    Env → Heap → LiteralExpression → Option (Heap × Val)
  | env, heap, .liTop ls => do
      let (heap, vals) ← denoteValues env heap ls
      some (makeRecord heap vals)
  | env, heap, .liBlock bk ls v rest => do
      let (heap, vals) ← denoteValues env heap ls
      let made := makeBlock bk heap vals
      denote realconst (Function.update env v (some made.2)) made.1 rest
  | env, heap, .liF64block ls v rest => do
      let doubles ← ls.mapM fun f => (realconst f).toOption
      let made := makeChunk heap (.eightByteAlignedNonpointerData doubles)
      denote realconst (Function.update env v (some made.2)) made.1 rest
  | env, heap, .liI32block ls v rest =>
      let made := makeChunk heap (.fourByteAlignedNonpointerData ls)
      denote realconst (Function.update env v (some made.2)) made.1 rest

/-- Each variable is one of the enclosing blocks, whose codetemps are distinct; a raw block has a
value, and so has the record at the end. -/
def WellScoped : List Codetemp → LiteralExpression → Prop
  | dictionary, .liTop ls => ls ≠ [] ∧ ∀ v, .liVar v ∈ ls → v ∈ dictionary
  | dictionary, .liBlock _ ls v rest =>
      (∀ v', .liVar v' ∈ ls → v' ∈ dictionary) ∧ v ∉ dictionary ∧ WellScoped (v :: dictionary) rest
  | dictionary, .liF64block ls v rest =>
      ls ≠ [] ∧ v ∉ dictionary ∧ WellScoped (v :: dictionary) rest
  | dictionary, .liI32block ls v rest =>
      ls ≠ [] ∧ v ∉ dictionary ∧ WellScoped (v :: dictionary) rest

def floats : LiteralExpression → List Bytes
  | .liTop _ => []
  | .liBlock _ _ _ rest => floats rest
  | .liF64block ls _ rest => ls ++ floats rest
  | .liI32block _ _ rest => floats rest

end Mythryl.MakeNextcodeLiteralsBytecodeVector

/-! # The instructions of a literal expression -/

namespace Mythryl.MakeNextcodeLiteralsBytecodeVector

open MakePackageLiterals (Instruction)

def operand (dictionary : List Codetemp) (d : Nat) : LiteralValue → Instruction
  | .liInt i => .makeTaggedVal (i.signExtend 32)
  | .liString s => .makeAsciiString s
  | .liVar v => .getIthLiteral (d + dictionary.idxOf v)

def operands (dictionary : List Codetemp) : List LiteralValue → Nat → List Instruction
  | [], _ => []
  | lit :: r, d => operand dictionary d lit :: operands dictionary r (d + 1)

def blockOf : BlockKind → Nat → Instruction
  | .liRecord => .makeRecord
  | .liVector => .makeVector

section

variable (realconst : Bytes → Outcome Bytes)

def doubleOf (f : Bytes) : Bytes :=
  match realconst f with
  | .ok r => r
  | .error _ => []

def assemble : List Codetemp → LiteralExpression → List Instruction
  | dictionary, .liTop ls => operands dictionary ls 0 ++ [.makeRecord ls.length]
  | dictionary, .liBlock bk ls v rest =>
      operands dictionary ls 0 ++ blockOf bk ls.length :: assemble (v :: dictionary) rest
  | dictionary, .liF64block ls v rest =>
      .makeEightByteVals (ls.map (doubleOf realconst)) :: assemble (v :: dictionary) rest
  | dictionary, .liI32block ls v rest =>
      .makeFourByteVals ls :: assemble (v :: dictionary) rest

end

def deepest : LiteralExpression → Nat → Nat → Nat
  | .liTop ls, d, maxDepth => max maxDepth (d + ls.length)
  | .liBlock _ ls _ rest, d, maxDepth => deepest rest (d + 1) (max maxDepth (d + ls.length))
  | .liF64block ls _ rest, d, maxDepth => deepest rest (d + 1) (max maxDepth (d + ls.length))
  | .liI32block ls _ rest, d, maxDepth => deepest rest (d + 1) (max maxDepth (d + ls.length))

section Outcomes

variable {l b x y : Bytes} {sl : List Bytes}

theorem pure_eq_ok {α : Type} {a b : α} : (pure a : Outcome α) = .ok b ↔ a = b := by
  simp [pure, Except.pure]

variable {n : Nat}

theorem int_eq_ok {m : Nat} : int n = .ok m ↔ n = m ∧ n < 2 ^ 30 := by
  unfold int
  split
  · rename_i lt
    rw [and_iff_left lt, Except.ok.injEq]
  · rename_i ge
    constructor
    · intro raised
      cases raised
    · rintro ⟨_, lt⟩
      exact absurd lt ge

theorem create_eq_ok : create n l = .ok b ↔ l = b ∧ n ≤ maximumVectorLength := by
  unfold create
  split
  · rename_i long
    simp [Nat.not_le.mpr long]
  · rename_i short
    simp [Nat.not_lt.mp short]

theorem int_create_eq_ok :
    (int n >>= fun n => create n l) = .ok b ↔ l = b ∧ n ≤ maximumVectorLength := by
  simp only [bind_eq_ok, int_eq_ok, create_eq_ok]
  constructor
  · rintro ⟨m, ⟨rfl, -⟩, made⟩
    exact made
  · rintro ⟨same, le⟩
    have lt : n < 2 ^ 30 := Nat.lt_of_le_of_lt le (by decide)
    exact ⟨n, ⟨rfl, lt⟩, same, le⟩

theorem fromList_eq_ok : fromList l = .ok b ↔ l = b ∧ l.length ≤ maximumVectorLength :=
  int_create_eq_ok

theorem cat_eq_ok : cat (x :: y :: sl) = .ok b ↔
    (x :: y :: sl).flatten = b ∧ (x :: y :: sl).flatten.length ≤ maximumVectorLength :=
  int_create_eq_ok

theorem find_eq_ok {v : Codetemp} {dictionary : List Codetemp} (bound : v ∈ dictionary) (d : Nat) :
    find v dictionary d = .ok (d + dictionary.idxOf v) := by
  induction dictionary generalizing d with
  | nil => cases bound
  | cons v' r ih =>
    rw [find]
    split
    · rename_i same
      subst same
      simp
    · rename_i other
      rw [List.idxOf_cons_ne r (Ne.symm other), ih ((List.mem_cons.mp bound).resolve_left other)]
      simp only [Nat.succ_eq_add_one, Except.ok.injEq]
      omega

end Outcomes

section Instructions

variable {b : Bytes} {dictionary : List Codetemp}

theorem count_short (op : Byte) (n : Nat) : (op :: intToBytes n).length ≤ maximumVectorLength := by
  simp [intToBytes, w32toBytes, w32toBytes', maximumVectorLength]

def Written (i : Instruction) (b : Bytes) : Prop :=
  i.bytes = b ∧ i.bytes.length ≤ maximumVectorLength

theorem putRaw32_eq_ok {ws : List (BitVec 32)} :
    putRaw32 ws = .ok b ↔ Written (.makeFourByteVals ws) b := by
  match ws with
  | [] => exact fromList_eq_ok
  | [i] => exact fromList_eq_ok
  | i :: i' :: ws => exact fromList_eq_ok

theorem head_cat_eq_ok {head : Bytes} (short : head.length ≤ maximumVectorLength) {x : Bytes}
    {sl : List Bytes} :
    (do
      let head ← fromList head
      cat (head :: x :: sl)) = .ok b ↔
    head ++ (x :: sl).flatten = b ∧ (head ++ (x :: sl).flatten).length ≤ maximumVectorLength := by
  have made := (@fromList_eq_ok head head).mpr ⟨rfl, short⟩
  rw [made]
  exact cat_eq_ok

theorem putRaw64_eq_ok {rs : List Bytes} :
    putRaw64 rs = .ok b ↔ Written (.makeEightByteVals rs) b := by
  match rs with
  | [] =>
    have made : putRaw64 [] = fromList (0x05 :: intToBytes 0) := rfl
    rw [made]
    exact fromList_eq_ok
  | [r] => exact fromList_eq_ok
  | r :: r' :: rs => exact head_cat_eq_ok (count_short 0x05 _)

theorem putString_eq_ok {s : Bytes} : putString s = .ok b ↔ Written (.makeAsciiString s) b := by
  have made := @head_cat_eq_ok b (0x06 :: intToBytes s.length) (count_short 0x06 _) s []
  rw [List.flatten_singleton] at made
  exact made

theorem putLitVal_eq_ok {d : Nat} {lit : LiteralValue}
    (bound : ∀ v, lit = .liVar v → v ∈ dictionary) :
    putLitVal dictionary d lit = .ok b ↔ Written (operand dictionary d lit) b := by
  cases lit with
  | liInt i => exact fromList_eq_ok
  | liString s => exact putString_eq_ok
  | liVar v =>
    rw [putLitVal, find_eq_ok (bound v rfl)]
    change putLit _ = .ok b ↔ _
    exact fromList_eq_ok

end Instructions

section Expressions

variable {dictionary : List Codetemp} {code code' : List Bytes}

def AllShort (is : List Instruction) : Prop := ∀ i ∈ is, i.bytes.length ≤ maximumVectorLength

theorem putLitVals_eq_ok {ls : List LiteralValue} {d : Nat}
    (bound : ∀ v, .liVar v ∈ ls → v ∈ dictionary) : putLitVals dictionary ls d code = .ok code' ↔
      ((operands dictionary ls d).map Instruction.bytes).reverse ++ code = code' ∧
        AllShort (operands dictionary ls d) := by
  induction ls generalizing d code with
  | nil => simp [putLitVals, operands, AllShort]
  | cons lit r ih =>
    have first := fun b => @putLitVal_eq_ok b dictionary d lit
      fun v same => bound v (same ▸ List.mem_cons_self)
    have rest := fun code => @ih code (d + 1) fun v mem => bound v (.tail _ mem)
    simp only [putLitVals, bind_eq_ok, first, rest, Written, operands, AllShort,
      List.forall_mem_cons, List.map_cons, List.reverse_cons, List.append_assoc,
      List.singleton_append]
    constructor
    · rintro ⟨b, ⟨rfl, short⟩, same, shorts⟩
      exact ⟨same, short, shorts⟩
    · rintro ⟨same, short, shorts⟩
      exact ⟨_, ⟨rfl, short⟩, same, shorts⟩

theorem allShort_append {is is' : List Instruction} :
    AllShort (is ++ is') ↔ AllShort is ∧ AllShort is' :=
  List.forall_mem_append

theorem putRecord_eq (n : Nat) : putRecord n = .ok (Instruction.makeRecord n).bytes :=
  fromList_eq_ok.mpr ⟨rfl, count_short 0x09 n⟩

theorem putVector_eq (n : Nat) : putVector n = .ok (Instruction.makeVector n).bytes :=
  fromList_eq_ok.mpr ⟨rfl, count_short 0x08 n⟩

theorem short_blockOf (bk : BlockKind) (n : Nat) : AllShort [blockOf bk n] := by
  intro i mem
  rw [List.mem_singleton.mp mem]
  cases bk with
  | liRecord => exact count_short 0x09 n
  | liVector => exact count_short 0x08 n

theorem emitablock_eq_ok {bk : BlockKind} {ls : List LiteralValue}
    (bound : ∀ v, .liVar v ∈ ls → v ∈ dictionary) : emitablock dictionary bk ls code = .ok code' ↔
      (blockOf bk ls.length).bytes ::
        (((operands dictionary ls 0).map Instruction.bytes).reverse ++ code) = code' ∧
      AllShort (operands dictionary ls 0) := by
  have made : emitablock dictionary bk ls code = (do
      let code ← putLitVals dictionary ls 0 code
      pure ((blockOf bk ls.length).bytes :: code)) := by
    cases bk with
    | liRecord => rw [emitablock, putRecord_eq]; rfl
    | liVector => rw [emitablock, putVector_eq]; rfl
  simp only [made, bind_eq_ok, putLitVals_eq_ok bound, pure_eq_ok]
  constructor
  · rintro ⟨_, ⟨rfl, shorts⟩, same⟩
    exact ⟨same, shorts⟩
  · rintro ⟨same, shorts⟩
    exact ⟨_, ⟨rfl, shorts⟩, same⟩

section Floats

variable {realconst : Bytes → Outcome Bytes}

def Convertible (realconst : Bytes → Outcome Bytes) (fs : List Bytes) : Prop :=
  ∀ f ∈ fs, ∃ r, realconst f = .ok r

theorem mapM_eq_ok {fs rs : List Bytes} : fs.mapM realconst = .ok rs ↔
      Convertible realconst fs ∧ fs.map (doubleOf realconst) = rs := by
  induction fs generalizing rs with
  | nil => simp [Convertible, pure_eq_ok]
  | cons f fs ih =>
    simp only [List.mapM_cons, bind_eq_ok, pure_eq_ok, ih, Convertible, List.forall_mem_cons,
      List.map_cons]
    constructor
    · rintro ⟨r, made, _, ⟨convertible, rfl⟩, rfl⟩
      exact ⟨⟨⟨r, made⟩, convertible⟩, by simp [doubleOf, made]⟩
    · rintro ⟨⟨⟨r, made⟩, convertible⟩, rfl⟩
      exact ⟨r, made, _, ⟨convertible, rfl⟩, by simp [doubleOf, made]⟩

theorem putF64block_eq_ok {ls : List Bytes} : putF64block realconst ls code = .ok code' ↔
      Convertible realconst ls ∧
      (Instruction.makeEightByteVals (ls.map (doubleOf realconst))).bytes :: code = code' ∧
      AllShort [.makeEightByteVals (ls.map (doubleOf realconst))] := by
  simp only [putF64block, bind_eq_ok, mapM_eq_ok, putRaw64_eq_ok, pure_eq_ok, Written, AllShort,
    List.forall_mem_singleton]
  constructor
  · rintro ⟨_, ⟨convertible, rfl⟩, _, ⟨rfl, short⟩, same⟩
    exact ⟨convertible, same, short⟩
  · rintro ⟨convertible, same, short⟩
    exact ⟨_, ⟨convertible, rfl⟩, _, ⟨rfl, short⟩, same⟩

theorem putI32block_eq_ok {ls : List (BitVec 32)} : putI32block ls code = .ok code' ↔
      (Instruction.makeFourByteVals ls).bytes :: code = code' ∧
      AllShort [.makeFourByteVals ls] := by
  simp only [putI32block, bind_eq_ok, putRaw32_eq_ok, pure_eq_ok, Written, AllShort,
    List.forall_mem_singleton]
  constructor
  · rintro ⟨_, ⟨rfl, short⟩, same⟩
    exact ⟨same, short⟩
  · rintro ⟨same, short⟩
    exact ⟨_, ⟨rfl, short⟩, same⟩

theorem putLitExpression_eq_ok {e : LiteralExpression} (wellScoped : WellScoped dictionary e) :
    putLitExpression realconst dictionary e code = .ok code' ↔ Convertible realconst (floats e) ∧
      putReturn :: (((assemble realconst dictionary e).map Instruction.bytes).reverse ++ code) =
        code' ∧ AllShort (assemble realconst dictionary e) := by
  induction e generalizing dictionary code with
  | liTop ls =>
    have last := short_blockOf .liRecord ls.length
    simp only [putLitExpression, bind_eq_ok, emitablock_eq_ok wellScoped.2, pure_eq_ok, floats,
      assemble, allShort_append]
    constructor
    · rintro ⟨_, ⟨rfl, shorts⟩, same⟩
      refine ⟨by simp [Convertible], ?_, shorts, last⟩
      simpa [blockOf] using same
    · rintro ⟨-, same, shorts, -⟩
      refine ⟨_, ⟨rfl, shorts⟩, ?_⟩
      simpa [blockOf] using same
  | liBlock bk ls v rest ih =>
    obtain ⟨bound, -, wellScoped⟩ := wellScoped
    have block := short_blockOf bk ls.length
    have code : assemble realconst dictionary (.liBlock bk ls v rest) =
        (operands dictionary ls 0 ++ [blockOf bk ls.length]) ++
          assemble realconst (v :: dictionary) rest := by
      rw [assemble, List.append_cons]
    simp only [putLitExpression, bind_eq_ok, emitablock_eq_ok bound, ih wellScoped, floats, code,
      allShort_append]
    constructor
    · rintro ⟨_, ⟨rfl, shorts⟩, convertible, same, shorts'⟩
      refine ⟨convertible, ?_, ⟨shorts, block⟩, shorts'⟩
      simpa using same
    · rintro ⟨convertible, same, ⟨shorts, -⟩, shorts'⟩
      refine ⟨_, ⟨rfl, shorts⟩, convertible, ?_, shorts'⟩
      simpa using same
  | liF64block ls v rest ih =>
    obtain ⟨-, -, wellScoped⟩ := wellScoped
    simp only [putLitExpression, bind_eq_ok, putF64block_eq_ok, ih wellScoped, floats, assemble,
      Convertible, List.forall_mem_append, AllShort, List.forall_mem_cons]
    constructor
    · rintro ⟨_, ⟨convertible, rfl, short, -⟩, convertible', same, shorts⟩
      refine ⟨⟨convertible, convertible'⟩, ?_, short, shorts⟩
      simpa using same
    · rintro ⟨⟨convertible, convertible'⟩, same, short, shorts⟩
      refine ⟨_, ⟨convertible, rfl, short, by simp⟩, convertible', ?_, shorts⟩
      simpa using same
  | liI32block ls v rest ih =>
    obtain ⟨-, -, wellScoped⟩ := wellScoped
    simp only [putLitExpression, bind_eq_ok, putI32block_eq_ok, ih wellScoped, floats, assemble,
      AllShort, List.forall_mem_cons]
    constructor
    · rintro ⟨_, ⟨rfl, short, -⟩, convertible, same, shorts⟩
      refine ⟨convertible, ?_, short, shorts⟩
      simpa using same
    · rintro ⟨convertible, same, short, shorts⟩
      refine ⟨_, ⟨rfl, short, by simp⟩, convertible, ?_, shorts⟩
      simpa using same

end Floats

end Expressions

section Depth

variable {dictionary : List Codetemp} {e rest : LiteralExpression} {d maxDepth n : Nat}

theorem le_deepest (e : LiteralExpression) (d maxDepth : Nat) :
    maxDepth ≤ deepest e d maxDepth := by
  induction e generalizing d maxDepth with
  | liTop ls => exact Nat.le_max_left ..
  | liBlock bk ls v rest ih => exact Nat.le_trans (Nat.le_max_left ..) (ih ..)
  | liF64block ls v rest ih => exact Nat.le_trans (Nat.le_max_left ..) (ih ..)
  | liI32block ls v rest ih => exact Nat.le_trans (Nat.le_max_left ..) (ih ..)

theorem lt_deepest (wellScoped : WellScoped dictionary e) (d maxDepth : Nat) :
    d < deepest e d maxDepth := by
  induction e generalizing dictionary d maxDepth with
  | liTop ls =>
    have some := List.length_pos_iff.mpr wellScoped.1
    rw [deepest]
    omega
  | liBlock bk ls v rest ih => exact Nat.lt_trans (Nat.lt_succ_self d) (ih wellScoped.2.2 ..)
  | liF64block ls v rest ih => exact Nat.lt_trans (Nat.lt_succ_self d) (ih wellScoped.2.2 ..)
  | liI32block ls v rest ih => exact Nat.lt_trans (Nat.lt_succ_self d) (ih wellScoped.2.2 ..)

theorem depth_block {len : Nat} (small : maxDepth < 2 ^ 30)
    (room : d + 1 < deepest rest (d + 1) (max maxDepth (d + len)))
    (ih : ∀ maxDepth, maxDepth < 2 ^ 30 →
      (depth rest (d + 1) maxDepth = .ok n ↔
        deepest rest (d + 1) maxDepth = n ∧ deepest rest (d + 1) maxDepth < 2 ^ 30)) :
    (do
      let d' ← int (d + 1)
      let n ← int (d + len)
      depth rest d' (max maxDepth n)) = .ok n ↔
    deepest rest (d + 1) (max maxDepth (d + len)) = n ∧
      deepest rest (d + 1) (max maxDepth (d + len)) < 2 ^ 30 := by
  simp only [bind_eq_ok, int_eq_ok]
  have above := le_deepest rest (d + 1) (max maxDepth (d + len))
  constructor
  · rintro ⟨_, ⟨rfl, -⟩, _, ⟨rfl, short⟩, measured⟩
    exact (ih _ (Nat.max_lt.mpr ⟨small, short⟩)).mp measured
  · intro measured
    have short := Nat.lt_of_le_of_lt above measured.2
    refine ⟨_, ⟨rfl, Nat.lt_trans room measured.2⟩, _, ⟨rfl, (Nat.max_lt.mp short).2⟩, ?_⟩
    exact (ih _ short).mpr measured

theorem depth_eq_ok (wellScoped : WellScoped dictionary e) (small : maxDepth < 2 ^ 30) :
    depth e d maxDepth = .ok n ↔ deepest e d maxDepth = n ∧ deepest e d maxDepth < 2 ^ 30 := by
  induction e generalizing dictionary d maxDepth with
  | liTop ls =>
    simp only [depth, bind_eq_ok, int_eq_ok, pure_eq_ok, deepest]
    constructor
    · rintro ⟨_, ⟨rfl, short⟩, same⟩
      exact ⟨same, Nat.max_lt.mpr ⟨small, short⟩⟩
    · rintro ⟨same, short⟩
      exact ⟨_, ⟨rfl, (Nat.max_lt.mp short).2⟩, same⟩
  | liBlock bk ls v rest ih =>
    exact depth_block small (lt_deepest wellScoped.2.2 ..) fun _ => ih wellScoped.2.2
  | liF64block ls v rest ih =>
    exact depth_block small (lt_deepest wellScoped.2.2 ..) fun _ => ih wellScoped.2.2
  | liI32block ls v rest ih =>
    exact depth_block small (lt_deepest wellScoped.2.2 ..) fun _ => ih wellScoped.2.2

def codeOf (is : List Instruction) : Bytes := is.flatMap Instruction.bytes

theorem part_le {i : Instruction} {is : List Instruction} (mem : i ∈ is) :
    i.bytes.length ≤ (codeOf is).length :=
  (List.sublist_flatten_of_mem (List.mem_map_of_mem mem)).length_le

theorem operands_length (ls : List LiteralValue) (d : Nat) :
    ls.length ≤ (codeOf (operands dictionary ls d)).length := by
  induction ls generalizing d with
  | nil => exact Nat.zero_le _
  | cons lit r ih =>
    have first : 0 < (operand dictionary d lit).bytes.length := by
      cases lit <;> exact Nat.zero_lt_succ _
    have others := ih (d + 1)
    simp only [operands, codeOf, List.flatMap_cons, List.length_append, List.length_cons]
    simp only [codeOf] at others
    omega

theorem lt_fourByteVals (ws : List (BitVec 32)) :
    ws.length < (Instruction.makeFourByteVals ws).bytes.length := by
  match ws with
  | [] => simp [Instruction.bytes]
  | [i] => simp [Instruction.bytes, w32toBytes]
  | i :: i' :: ws =>
    simp only [Instruction.bytes, intToBytes', List.length_cons, MakePackageLiterals.length_word,
      MakePackageLiterals.length_words]
    omega

theorem lt_eightByteVals {ds : List Bytes} (eight : ∀ d ∈ ds, d.length = 8) :
    ds.length < (Instruction.makeEightByteVals ds).bytes.length := by
  match ds with
  | [] => simp [Instruction.bytes]
  | [d] => simp [Instruction.bytes, eight d List.mem_cons_self]
  | d :: d' :: ds =>
    simp only [Instruction.bytes, intToBytes', List.length_cons, MakePackageLiterals.length_word,
      MakePackageLiterals.length_doubles eight]
    omega

variable {realconst : Bytes → Outcome Bytes}

theorem eight_doubleOf (eight : ∀ f r, realconst f = .ok r → r.length = 8) {fs : List Bytes}
    (convertible : Convertible realconst fs) : ∀ d ∈ fs.map (doubleOf realconst), d.length = 8 := by
  intro d mem
  obtain ⟨f, member, rfl⟩ := List.mem_map.mp mem
  obtain ⟨r, made⟩ := convertible f member
  simpa [doubleOf, made] using eight f r made

theorem deepest_le (eight : ∀ f r, realconst f = .ok r → r.length = 8)
    (convertible : Convertible realconst (floats e)) (dictionary : List Codetemp)
    (d maxDepth : Nat) :
    deepest e d maxDepth ≤ max maxDepth (d + (codeOf (assemble realconst dictionary e)).length) := by
  induction e generalizing dictionary d maxDepth with
  | liTop ls =>
    have length := @operands_length dictionary ls 0
    simp only [deepest, assemble, codeOf, List.flatMap_append, List.length_append]
    simp only [codeOf] at length
    omega
  | liBlock bk ls v rest ih =>
    have length := @operands_length dictionary ls 0
    have others := ih convertible (v :: dictionary) (d + 1) (max maxDepth (d + ls.length))
    have block : 0 < (blockOf bk ls.length).bytes.length := by
      cases bk <;> exact Nat.zero_lt_succ _
    simp only [deepest, assemble, codeOf, List.flatMap_append, List.flatMap_cons,
      List.length_append]
    simp only [codeOf] at length others
    omega
  | liF64block ls v rest ih =>
    obtain ⟨here, convertible⟩ := List.forall_mem_append.mp convertible
    have length := lt_eightByteVals (eight_doubleOf eight here)
    have others := ih convertible (v :: dictionary) (d + 1) (max maxDepth (d + ls.length))
    simp only [deepest, assemble, codeOf, List.flatMap_cons, List.length_append]
    simp only [codeOf, List.length_map] at length others
    omega
  | liI32block ls v rest ih =>
    have length := lt_fourByteVals ls
    have others := ih convertible (v :: dictionary) (d + 1) (max maxDepth (d + ls.length))
    simp only [deepest, assemble, codeOf, List.flatMap_cons, List.length_append]
    simp only [codeOf] at others
    omega

end Depth

section Object

variable {realconst : Bytes → Outcome Bytes} {e : LiteralExpression} {bytes : Bytes}

def object (realconst : Bytes → Outcome Bytes) (e : LiteralExpression) : Bytes :=
  putMagic ++ (intToBytes (deepest e 0 1) ++ (codeOf (assemble realconst [] e) ++ putReturn))

theorem make_eq (wellScoped : WellScoped [] e) :
    makeNextcodeLiteralsBytecodeVector realconst e = (do
      let maxDepth ← depth e 0 1
      let header ← putDepth maxDepth
      let code ← putLitExpression realconst [] e []
      cat (putMagic :: header :: code.reverse)) := by
  unfold makeNextcodeLiteralsBytecodeVector
  split
  · exact absurd rfl wellScoped.1
  · rfl

theorem make_eq_ok (eight : ∀ f r, realconst f = .ok r → r.length = 8)
    (wellScoped : WellScoped [] e) : makeNextcodeLiteralsBytecodeVector realconst e = .ok bytes ↔
      Convertible realconst (floats e) ∧ object realconst e = bytes ∧
        (object realconst e).length ≤ maximumVectorLength := by
  have whole : ∀ header : Bytes,
      (putMagic :: header ::
        (putReturn :: (((assemble realconst [] e).map Instruction.bytes).reverse ++ [])).reverse).flatten
      = putMagic ++ (header ++ (codeOf (assemble realconst [] e) ++ putReturn)) := by
    intro header
    simp [codeOf, List.flatMap_def]
  have header : ∀ n, (intToBytes n).length ≤ maximumVectorLength := fun n =>
    Nat.le_trans (Nat.le_succ _) (count_short 0 n)
  simp only [make_eq wellScoped, bind_eq_ok, depth_eq_ok wellScoped (by decide : 1 < 2 ^ 30),
    putDepth, fromList_eq_ok, putLitExpression_eq_ok wellScoped]
  constructor
  · rintro ⟨_, ⟨rfl, -⟩, _, ⟨rfl, -⟩, _, ⟨convertible, rfl, -⟩, made⟩
    rw [cat_eq_ok, whole] at made
    exact ⟨convertible, made⟩
  · rintro ⟨convertible, same, short⟩
    have measured := deepest_le eight convertible [] 0 1
    have inside : (codeOf (assemble realconst [] e)).length ≤ maximumVectorLength := by
      simp only [object, List.length_append] at short
      omega
    refine ⟨_, ⟨rfl, ?_⟩, _, ⟨rfl, header _⟩, _, ⟨convertible, rfl, ?_⟩, ?_⟩
    · simp only [maximumVectorLength] at inside
      omega
    · intro i mem
      exact Nat.le_trans (part_le mem) inside
    · rw [cat_eq_ok, whole]
      exact ⟨same, short⟩

end Object

/-! # The bytecode makes the literals -/

open MakePackageLiterals

structure Named (env : Env) (dictionary : List Codetemp) (stack : List Val) : Prop where
  length : stack.length = dictionary.length
  value : ∀ v ∈ dictionary, env v = stack[dictionary.idxOf v]?

theorem Named.bind {env : Env} {dictionary : List Codetemp} {stack : List Val}
    (named : Named env dictionary stack) (v : Codetemp) (val : Val) :
    Named (Function.update env v (some val)) (v :: dictionary) (val :: stack) where
  length := by simp [named.length]
  value := by
    intro v' mem
    by_cases same : v' = v
    · subst same
      simp
    · have other := named.value v' ((List.mem_cons.mp mem).resolve_left same)
      rw [Function.update_of_ne same, other, List.idxOf_cons_ne _ (Ne.symm same)]
      rfl

section Performing

variable {env : Env} {dictionary : List Codetemp} {base : List Val} {bound : Nat}

theorem taggedInt_signExtend (i : BitVec 31) :
    taggedIntFromCInt (i.signExtend 32) = .taggedInt i := by
  have low : (i.signExtend 32).setWidth 31 = i := by
    apply BitVec.eq_of_getElem_eq
    intro j lt
    have lt' : j < 32 := Nat.lt_succ_of_lt lt
    rw [BitVec.getElem_setWidth, BitVec.getLsbD_signExtend]
    simp [lt, lt']
  exact congrArg Val.taggedInt low

theorem operand_perform (named : Named env dictionary base) (heap : Heap) (pushed : List Val)
    {lit : LiteralValue} (bound : ∀ v, lit = .liVar v → v ∈ dictionary) :
    ∃ heap' val, denoteValue env heap lit = some (heap', val) ∧
      (operand dictionary pushed.length lit).perform heap (pushed ++ base) =
        some (heap', val :: (pushed ++ base)) := by
  cases lit with
  | liInt i =>
    refine ⟨heap, .taggedInt i, rfl, ?_⟩
    rw [← taggedInt_signExtend]
    rfl
  | liString s => exact ⟨_, _, rfl, rfl⟩
  | liVar v =>
    have mem := bound v rfl
    have inside : dictionary.idxOf v < base.length := by
      rw [named.length]
      exact List.idxOf_lt_length_of_mem mem
    have here : (pushed ++ base)[pushed.length + dictionary.idxOf v]? =
        some base[dictionary.idxOf v] := by
      rw [List.getElem?_append_right (Nat.le_add_right ..), Nat.add_sub_cancel_left,
        List.getElem?_eq_getElem inside]
    refine ⟨heap, base[dictionary.idxOf v], ?_, ?_⟩
    · rw [denoteValue, named.value v mem, List.getElem?_eq_getElem inside]
      rfl
    · simp [operand, Instruction.perform, Instruction.makes, Instruction.pops, here]

theorem operands_perform (named : Named env dictionary base) (heap : Heap) (pushed : List Val)
    {ls : List LiteralValue} (inScope : ∀ v, .liVar v ∈ ls → v ∈ dictionary)
    (shallow : base.length + pushed.length + ls.length ≤ bound) :
    ∃ heap' vals, denoteValues env heap ls = some (heap', vals) ∧ vals.length = ls.length ∧
      Performs bound (operands dictionary ls pushed.length) heap (pushed ++ base) heap'
        (vals.reverse ++ (pushed ++ base)) := by
  have room : (pushed ++ base).length ≤ bound := by
    rw [List.length_append]
    omega
  induction ls generalizing heap pushed with
  | nil => exact ⟨heap, [], rfl, rfl, .nil room⟩
  | cons lit r ih =>
    obtain ⟨middle, val, value, performed⟩ := operand_perform named heap pushed
      fun v same => inScope v (same ▸ List.mem_cons_self)
    have deeper : base.length + (val :: pushed).length + r.length ≤ bound := by
      simp only [List.length_cons] at shallow ⊢
      omega
    have room' : (val :: pushed ++ base).length ≤ bound := by
      simp only [List.length_append, List.length_cons] at deeper ⊢
      omega
    obtain ⟨heap', vals, values, length, performs⟩ := ih middle (val :: pushed)
      (fun v mem => inScope v (.tail _ mem)) deeper room'
    refine ⟨heap', val :: vals, ?_, by simp [length], ?_⟩
    · simp [denoteValues, value, values]
    · rw [List.reverse_cons, List.append_assoc]
      exact .cons room performed performs

theorem blockOf_perform (bk : BlockKind) (heap : Heap) (vals : List Val) (base : List Val) :
    (blockOf bk vals.length).perform heap (vals.reverse ++ base) =
      some ((makeBlock bk heap vals).1, (makeBlock bk heap vals).2 :: base) := by
  cases bk <;>
    simp [blockOf, Instruction.perform, Instruction.makes, Instruction.pops, makeBlock]

theorem block_performs (named : Named env dictionary base) (heap : Heap) (bk : BlockKind)
    {ls : List LiteralValue} (inScope : ∀ v, .liVar v ∈ ls → v ∈ dictionary)
    (shallow : base.length + ls.length ≤ bound) (room : base.length + 1 ≤ bound) :
    ∃ heap' vals, denoteValues env heap ls = some (heap', vals) ∧
      Performs bound (operands dictionary ls 0 ++ [blockOf bk ls.length]) heap base
        (makeBlock bk heap' vals).1 ((makeBlock bk heap' vals).2 :: base) := by
  obtain ⟨heap', vals, values, length, performs⟩ :=
    operands_perform named heap [] inScope (by simpa using shallow)
  have block := blockOf_perform bk heap' vals base
  rw [length] at block
  have full : (vals.reverse ++ base).length ≤ bound := by
    simp only [List.length_append, List.length_reverse, length]
    omega
  refine ⟨heap', vals, values, performs.append (.cons ?_ block (.nil ?_))⟩
  · simpa using full
  · simpa using room

theorem mapM_toOption {realconst : Bytes → Outcome Bytes} {fs : List Bytes}
    (convertible : Convertible realconst fs) :
    fs.mapM (fun f => (realconst f).toOption) = some (fs.map (doubleOf realconst)) := by
  induction fs with
  | nil => rfl
  | cons f fs ih =>
    obtain ⟨⟨r, made⟩, convertible⟩ := List.forall_mem_cons.mp convertible
    rw [List.mapM_cons, ih convertible]
    simp [doubleOf, made, Except.toOption]

theorem denotes_and_performs {realconst : Bytes → Outcome Bytes} {e : LiteralExpression}
    (wellScoped : WellScoped dictionary e) (convertible : Convertible realconst (floats e))
    (named : Named env dictionary base) (heap : Heap) (maxDepth : Nat)
    (deep : deepest e base.length maxDepth ≤ bound) :
    ∃ heap' val stack, denote realconst env heap e = some (heap', val) ∧
      Performs bound (assemble realconst dictionary e) heap base heap' (val :: stack) := by
  have room : base.length + 1 ≤ bound := Nat.le_trans (lt_deepest wellScoped ..) deep
  induction e generalizing env dictionary base heap maxDepth with
  | liTop ls =>
    obtain ⟨heap', vals, values, performs⟩ := block_performs named heap .liRecord wellScoped.2
      (Nat.le_trans (Nat.le_max_right ..) deep) room
    exact ⟨_, _, base, by simp [denote, values, makeBlock], performs⟩
  | liBlock bk ls v rest ih =>
    obtain ⟨inScope, -, wellScoped⟩ := wellScoped
    have above := le_deepest rest (base.length + 1) (max maxDepth (base.length + ls.length))
    obtain ⟨middle, vals, values, performs⟩ := block_performs named heap bk inScope
      (Nat.le_trans (Nat.le_max_right ..) (Nat.le_trans above deep)) room
    obtain ⟨heap', val, stack, denoted, others⟩ := ih wellScoped convertible
      (named.bind v (makeBlock bk middle vals).2) (makeBlock bk middle vals).1 _ deep
      (Nat.le_trans (lt_deepest wellScoped ..) deep)
    refine ⟨heap', val, stack, by simp [denote, values, denoted], ?_⟩
    rw [assemble, List.append_cons]
    exact performs.append others
  | liF64block ls v rest ih =>
    obtain ⟨here, convertible⟩ := List.forall_mem_append.mp convertible
    obtain ⟨heap', val, stack, denoted, others⟩ := ih wellScoped.2.2 convertible
      (named.bind v (.pointer heap.length))
      (heap ++ [.eightByteAlignedNonpointerData (ls.map (doubleOf realconst))]) _ deep
      (Nat.le_trans (lt_deepest wellScoped.2.2 ..) deep)
    refine ⟨heap', val, stack, ?_, .cons (Nat.le_of_succ_le room) rfl others⟩
    simp [denote, mapM_toOption here, makeChunk, denoted]
  | liI32block ls v rest ih =>
    obtain ⟨heap', val, stack, denoted, others⟩ := ih wellScoped.2.2 convertible
      (named.bind v (.pointer heap.length)) (heap ++ [.fourByteAlignedNonpointerData ls]) _ deep
      (Nat.le_trans (lt_deepest wellScoped.2.2 ..) deep)
    refine ⟨heap', val, stack, ?_, .cons (Nat.le_of_succ_le room) rfl others⟩
    simp [denote, makeChunk, denoted]

end Performing

section Writing

variable {dictionary : List Codetemp}

theorem operands_writable (ls : List LiteralValue) (d : Nat)
    (short : AllShort (operands dictionary ls d)) : ∀ i ∈ operands dictionary ls d, i.Writable := by
  induction ls generalizing d with
  | nil => simp [operands]
  | cons lit r ih =>
    obtain ⟨first, others⟩ := List.forall_mem_cons.mp short
    refine List.forall_mem_cons.mpr ⟨?_, ih (d + 1) others⟩
    cases lit with
    | liInt i => trivial
    | liString s =>
      have length : s.length ≤ (Instruction.makeAsciiString s).bytes.length := by
        simp only [Instruction.bytes, intToBytes', List.length_cons, length_word]
        omega
      exact Nat.lt_of_le_of_lt (Nat.le_trans length first) (by decide)
    | liVar v => trivial

theorem assemble_writable {realconst : Bytes → Outcome Bytes}
    (eight : ∀ f r, realconst f = .ok r → r.length = 8) {e : LiteralExpression}
    (wellScoped : WellScoped dictionary e) (convertible : Convertible realconst (floats e))
    (short : AllShort (assemble realconst dictionary e)) :
    ∀ i ∈ assemble realconst dictionary e, i.Writable := by
  have small : ∀ {n m : Nat}, n < m → m ≤ maximumVectorLength → n < 2 ^ 31 := by
    intro n m lt le
    simp only [maximumVectorLength] at le
    omega
  induction e generalizing dictionary with
  | liTop ls =>
    obtain ⟨here, -⟩ := allShort_append.mp short
    refine List.forall_mem_append.mpr ⟨operands_writable ls 0 here, ?_⟩
    simp [Instruction.Writable]
  | liBlock bk ls v rest ih =>
    obtain ⟨here, others⟩ := allShort_append.mp short
    obtain ⟨-, others⟩ := List.forall_mem_cons.mp others
    refine List.forall_mem_append.mpr ⟨operands_writable ls 0 here, ?_⟩
    refine List.forall_mem_cons.mpr ⟨?_, ih wellScoped.2.2 convertible others⟩
    cases bk <;> trivial
  | liF64block ls v rest ih =>
    obtain ⟨first, others⟩ := List.forall_mem_cons.mp short
    obtain ⟨here, convertible⟩ := List.forall_mem_append.mp convertible
    have doubles := eight_doubleOf eight here
    refine List.forall_mem_cons.mpr ⟨⟨?_, ?_, doubles⟩, ih wellScoped.2.2 convertible others⟩
    · simpa using wellScoped.1
    · exact small (lt_eightByteVals doubles) first
  | liI32block ls v rest ih =>
    obtain ⟨first, others⟩ := List.forall_mem_cons.mp short
    refine List.forall_mem_cons.mpr
      ⟨⟨wellScoped.1, small (lt_fourByteVals ls) first⟩, ih wellScoped.2.2 convertible others⟩

end Writing

theorem object_eq (realconst : Bytes → Outcome Bytes) (e : LiteralExpression) :
    object realconst e = w32toBytes' v1Magic (w32toBytes' (BitVec.ofNat 32 (deepest e 0 1))
      (codeOf (assemble realconst [] e) ++ putReturn)) := rfl

theorem object_stands (realconst : Bytes → Outcome Bytes) (e : LiteralExpression) :
    At (object realconst e) 0 (w32toBytes' v1Magic (w32toBytes' (BitVec.ofNat 32 (deepest e 0 1))
      (codeOf (assemble realconst [] e) ++ putReturn))) :=
  at_all

theorem round_return {p : Bytes} {pc : Nat} {val : Val} {stack : List Val} {heap : Heap}
    (opcode : p[pc]? = some 0xff) (last : pc + 1 = p.length) :
    round p ⟨pc, val :: stack, heap⟩ = .ok (.returned val) := by
  simp [MakePackageLiterals.round, opcode, last]

/-- The bytecode is made exactly when the floats have bytes and the whole fits in a vector. The
interpreter then ends at the return, all bytes read, with the record that the expression denotes;
no round faults, and the stack never gets deeper than the header says. -/
theorem interprets_literals {realconst : Bytes → Outcome Bytes}
    (eight : ∀ f r, realconst f = .ok r → r.length = 8) {e : LiteralExpression}
    (wellScoped : WellScoped [] e) (heap : Heap) :
    ((∃ bytes, makeNextcodeLiteralsBytecodeVector realconst e = .ok bytes) ↔
      Convertible realconst (floats e) ∧ (object realconst e).length ≤ maximumVectorLength) ∧
    ∀ bytes, makeNextcodeLiteralsBytecodeVector realconst e = .ok bytes →
      ∃ maxDepth heap' val,
        header bytes = .ok (v1Magic, maxDepth) ∧
        denote realconst (fun _ => none) heap e = some (heap', val) ∧
        (∃ fuel, makePackageLiteralsViaBytecodeInterpreter fuel bytes heap =
          some (.ok (heap', val))) ∧
        (∃ final, Reaches bytes (start heap) final ∧ bytes[final.pc]? = some 0xff ∧
          final.pc + 1 = bytes.length ∧ round bytes final = .ok (.returned val)) ∧
        ∀ s, Reaches bytes (start heap) s →
          s.stack.length ≤ maxDepth.toNat ∧ ∃ outcome, round bytes s = .ok outcome := by
  constructor
  · constructor
    · rintro ⟨bytes, made⟩
      obtain ⟨convertible, -, short⟩ := (make_eq_ok eight wellScoped).mp made
      exact ⟨convertible, short⟩
    · rintro ⟨convertible, short⟩
      exact ⟨_, (make_eq_ok eight wellScoped).mpr ⟨convertible, rfl, short⟩⟩
  · intro bytes made
    obtain ⟨convertible, rfl, short⟩ := (make_eq_ok eight wellScoped).mp made
    have stands := object_stands realconst e
    obtain ⟨magic, stands⟩ := get32_eq stands
    obtain ⟨maxDepth, stands⟩ := get32_eq stands
    obtain ⟨code, return_⟩ := at_append.mp stands
    have opcode := (at_cons.mp return_).1
    have length : (object realconst e).length =
        0 + 4 + 4 + (codeOf (assemble realconst [] e)).length + 1 := by
      simp only [object_eq, length_word, List.length_append, putReturn, List.length_singleton]
      omega
    have shorts : AllShort (assemble realconst [] e) := by
      intro i mem
      exact Nat.le_trans (part_le mem) (by omega)
    have deep : deepest e 0 1 < 2 ^ 31 := by
      have measured := deepest_le eight convertible [] 0 1
      simp only [maximumVectorLength] at short
      omega
    obtain ⟨heap', val, stack, denoted, performs⟩ := denotes_and_performs wellScoped convertible
      (⟨rfl, fun v mem => nomatch mem⟩ : Named (fun _ => none) [] []) heap 1 (Nat.le_refl _)
    have path := performs.path deep (assemble_writable eight wellScoped convertible shorts) code
    have last := @round_return _ _ val stack heap' opcode length.symm
    have head : header (object realconst e) =
        .ok (v1Magic, BitVec.ofNat 32 (deepest e 0 1)) := by
      rw [header, magic]
      simp only [ok_bind, maxDepth]
      rfl
    refine ⟨_, heap', val, head, denoted, ?_, ⟨_, path.reaches, opcode, length.symm, last⟩, ?_⟩
    · obtain ⟨fuel, returns⟩ := path.loop last
      refine ⟨fuel, ?_⟩
      rw [makePackageLiteralsViaBytecodeInterpreter, if_neg (by omega), head]
      simpa [start] using returns
    · intro s reaches
      rw [toNat_count deep]
      exact path.guards last reaches

def realOne (f : Bytes) : Outcome Bytes :=
  if f = [0x31, 0x2e, 0x30] then .ok [0x3f, 0xf0, 0, 0, 0, 0, 0, 0] else .error (.badFloat f)

def shared : LiteralExpression :=
  .liF64block [[0x31, 0x2e, 0x30], [0x31, 0x2e, 0x30]] 7
    (.liBlock .liVector [.liInt 5, .liVar 7, .liString [0x61]] 8
      (.liTop [.liVar 7, .liVar 8, .liVar 8]))

theorem interprets_literals_shared :
    ∃ bytes fuel heap, makeNextcodeLiteralsBytecodeVector realOne shared = .ok bytes ∧
      makePackageLiteralsViaBytecodeInterpreter fuel bytes [] = some (.ok (heap, .pointer 3)) := by
  have eight : ∀ f r, realOne f = .ok r → r.length = 8 := by
    intro f r made
    unfold realOne at made
    split at made
    · cases made
      rfl
    · cases made
  have wellScoped : WellScoped [] shared := by simp [WellScoped, shared]
  obtain ⟨⟨-, makes⟩, interprets⟩ := interprets_literals eight wellScoped []
  obtain ⟨bytes, made⟩ := makes ⟨by simp [Convertible, floats, shared, realOne], by decide⟩
  obtain ⟨_, heap, val, -, denoted, ⟨fuel, returns⟩, -⟩ := interprets bytes made
  have pointer : val = .pointer 3 := by
    have value : (denote realOne (fun _ => none) [] shared).map Prod.snd = some (.pointer 3) := by
      decide
    rw [denoted] at value
    exact Option.some.inj value
  exact ⟨bytes, fuel, heap, made, pointer ▸ returns⟩

end Mythryl.MakeNextcodeLiteralsBytecodeVector
