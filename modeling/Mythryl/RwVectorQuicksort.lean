import Mythryl.Runtime
import Mathlib.Logic.Equiv.Basic

/-!
# Quicksort on a range of a vector

`sort_range` of `src/lib/src/rw-vector-quicksort-g.pkg`.
-/

namespace Mythryl.RwVectorQuicksort

/-- The elements of a vector. Which indices the code may use is up to a `Context`. -/
abbrev Cells (α : Type) := Int → α

/-- The indices that `get` and `set` accept, and a bound on the rounds of each loop. -/
structure Context where
  lo : Int
  hi : Int
  rounds : Nat

variable {α : Type}

def item (c : Context) (v : Cells α) (i : Int) : Outcome α :=
  if c.lo ≤ i ∧ i < c.hi then .ok (v i) else throw .subscript

def put (c : Context) (v : Cells α) (i : Int) (x : α) : Outcome (Cells α) :=
  if c.lo ≤ i ∧ i < c.hi then .ok (Function.update v i x) else throw .subscript

def swap (c : Context) (v : Cells α) (i j : Int) : Outcome (Cells α) := do
  let tmp ← item c v i
  let v' ← put c v i (← item c v j)
  put c v' j tmp

def vecswap (c : Context) : Nat → Cells α → Int → Int → Int → Outcome (Cells α)
  | 0, _, _, _, _ => throw .unfinished
  | fuel + 1, v, i, j, n =>
      if n = 0 then .ok v else do vecswap c fuel (← swap c v i j) (i + 1) (j + 1) (n - 1)

variable (compare : α → α → Ordering)

def inner (c : Context) (start : Int) : Nat → Cells α → Int → Outcome (Cells α)
  | 0, _, _ => throw .unfinished
  | fuel + 1, v, j =>
      if j = start then .ok v
      else do
        let j' := j - 1
        if compare (← item c v j') (← item c v j) = .gt then
          inner c start fuel (← swap c v j j') j'
        else .ok v

def outer (c : Context) (start limit : Int) : Nat → Cells α → Int → Outcome (Cells α)
  | 0, _, _ => throw .unfinished
  | fuel + 1, v, i =>
      if i < limit then do outer c start limit fuel (← inner compare c start c.rounds v i) (i + 1)
      else .ok v

def insertSort (c : Context) (v : Cells α) (start n : Int) : Outcome (Cells α) :=
  outer compare c start (start + n) c.rounds v (start + 1)

def med3 (ctx : Context) (v : Cells α) (a b c : Int) : Outcome Int := do
  let a' ← item ctx v a
  let b' ← item ctx v b
  let c' ← item ctx v c
  match compare a' b', compare b' c' with
  | .lt, .lt => return b
  | .lt, _ => return if compare a' c' = .lt then c else a
  | _, .gt => return b
  | _, _ => return if compare a' c' = .lt then a else c

def getPivot (c : Context) (v : Cells α) (a n : Int) : Outcome Int :=
  if n ≤ 7 then .ok (a + n / 2)
  else
    let p1 := a
    let pm := a + n / 2
    let pn := a + n - 1
    if n ≤ 40 then med3 compare c v p1 pm pn
    else do
      let d := n / 8
      let p1 ← med3 compare c v p1 (p1 + d) (p1 + 2 * d)
      let pm ← med3 compare c v (pm - d) pm (pm + d)
      let pn ← med3 compare c v (pn - 2 * d) (pn - d) pn
      med3 compare c v p1 pm pn

def bottom (c : Context) (a limit : Int) : Nat → Cells α → Int → Int → Outcome (Cells α × Int × Int)
  | 0, _, _, _ => throw .unfinished
  | fuel + 1, v, pa, pb =>
      if pb > limit then .ok (v, pa, pb)
      else do
        match compare (← item c v pb) (← item c v a) with
        | .gt => .ok (v, pa, pb)
        | .lt => bottom c a limit fuel v pa (pb + 1)
        | .eq => bottom c a limit fuel (← swap c v pa pb) (pa + 1) (pb + 1)

def top (c : Context) (a limit : Int) : Nat → Cells α → Int → Int → Outcome (Cells α × Int × Int)
  | 0, _, _, _ => throw .unfinished
  | fuel + 1, v, pc, pd =>
      if limit > pc then .ok (v, pc, pd)
      else do
        match compare (← item c v pc) (← item c v a) with
        | .lt => .ok (v, pc, pd)
        | .gt => top c a limit fuel v (pc - 1) pd
        | .eq => top c a limit fuel (← swap c v pc pd) (pc - 1) (pd - 1)

structure Blocks where
  pa : Int
  pb : Int
  pc : Int
  pd : Int

def split (c : Context) (a : Int) : Nat → Cells α → Blocks → Outcome (Cells α × Blocks)
  | 0, _, _ => throw .unfinished
  | fuel + 1, v, ⟨pa, pb, pc, pd⟩ => do
      let (v, pa, pb) ← bottom compare c a pc c.rounds v pa pb
      let (v, pc, pd) ← top compare c a pb c.rounds v pc pd
      if pb > pc then .ok (v, ⟨pa, pb, pc, pd⟩)
      else do split c a fuel (← swap c v pb pc) ⟨pa, pb + 1, pc - 1, pd⟩

/-- The part of `quick_sort` before its recursive calls. -/
def partition (c : Context) (v : Cells α) (a n : Int) : Outcome (Cells α × Blocks) := do
  let pm ← getPivot compare c v a n
  let v ← swap c v a pm
  let (v, ⟨pa, pb, pc, pd⟩) ←
    split compare c a c.rounds v ⟨a + 1, a + 1, a + (n - 1), a + (n - 1)⟩
  let pn := a + n
  let r := min (pa - a) (pb - pa)
  let v ← vecswap c c.rounds v a (pb - r) r
  let r := min (pd - pc) (pn - pd - 1)
  let v ← vecswap c c.rounds v pb (pn - r) r
  return (v, ⟨pa, pb, pc, pd⟩)

/-- `sort`, with `quick_sort` in its second branch. -/
def sort (c : Context) : Nat → Cells α → Int → Int → Outcome (Cells α)
  | 0, _, _, _ => throw .unfinished
  | fuel + 1, v, a, n =>
      if n < 7 then insertSort compare c v a n
      else do
        let (v, ⟨pa, pb, pc, pd⟩) ← partition compare c v a n
        let n' := pb - pa
        let v ← if n' > 1 then sort c fuel v a n' else .ok v
        let n' := pd - pc
        if n' > 1 then sort c fuel v (a + n - n') n' else .ok v

def sortRange (c : Context) (v : Cells α) (start n : Int) : Outcome (Cells α) :=
  sort compare c c.rounds v start n

end Mythryl.RwVectorQuicksort

namespace Mythryl.RwVectorQuicksort

variable {α : Type} {c : Context} {s e i j : Int} {v v' : Cells α}

/-- The range may be used, and no loop over it runs out of rounds. -/
def Covers (c : Context) (s e : Int) : Prop := c.lo ≤ s ∧ e ≤ c.hi ∧ e - s < c.rounds

/-- The elements of the range in another order, and the others where they were. -/
def Rearranged (s e : Int) (v v' : Cells α) : Prop :=
  ∃ σ : Equiv.Perm Int, (∀ k, ¬(s ≤ k ∧ k < e) → σ k = k) ∧ v' = v ∘ σ

theorem Rearranged.refl (v : Cells α) : Rearranged s e v v := ⟨.refl _, fun _ _ => rfl, rfl⟩

theorem Rearranged.trans {v'' : Cells α} (h : Rearranged s e v v') (h' : Rearranged s e v' v'') :
    Rearranged s e v v'' := by
  obtain ⟨σ, outside, rfl⟩ := h
  obtain ⟨τ, outside', rfl⟩ := h'
  refine ⟨τ.trans σ, fun k out => ?_, rfl⟩
  rw [Equiv.trans_apply, outside' k out, outside k out]

theorem Rearranged.mono {s' e' : Int} (h : Rearranged s e v v') (left : s' ≤ s) (right : e ≤ e') :
    Rearranged s' e' v v' :=
  h.imp fun σ h => ⟨fun k out => h.1 k (by omega), h.2⟩

theorem Rearranged.swap (left : s ≤ i ∧ i < e) (right : s ≤ j ∧ j < e) :
    Rearranged s e v (v ∘ Equiv.swap i j) := by
  refine ⟨Equiv.swap i j, fun k out => ?_, rfl⟩
  apply Equiv.swap_apply_of_ne_of_ne
  · rintro rfl
    exact out left
  · rintro rfl
    exact out right

theorem Rearranged.outside (h : Rearranged s e v v') {k : Int} (out : ¬(s ≤ k ∧ k < e)) :
    v' k = v k := by
  obtain ⟨σ, fixed, rfl⟩ := h
  exact congrArg v (fixed k out)

theorem Rearranged.all {P : α → Prop} (h : Rearranged s e v v') (all : ∀ k, s ≤ k → k < e → P (v k)) :
    ∀ k, s ≤ k → k < e → P (v' k) := by
  obtain ⟨σ, fixed, rfl⟩ := h
  intro k left right
  have inside : s ≤ σ k ∧ σ k < e := by
    by_contra out
    have same := σ.injective (fixed _ out)
    rw [same] at out
    exact out ⟨left, right⟩
  exact all _ inside.1 inside.2

theorem swap_eq (left : c.lo ≤ i ∧ i < c.hi) (right : c.lo ≤ j ∧ j < c.hi) :
    swap c v i j = .ok (v ∘ Equiv.swap i j) := by
  simp only [swap, item, put, if_pos left, if_pos right, ok_bind]
  refine congrArg Except.ok (funext fun k => ?_)
  simp only [Function.update_apply, Function.comp_apply, Equiv.swap_apply_def]
  split_ifs
  all_goals simp_all

theorem swap_covered (cover : Covers c s e) (left : s ≤ i ∧ i < e) (right : s ≤ j ∧ j < e) :
    swap c v i j = .ok (v ∘ Equiv.swap i j) :=
  swap_eq ⟨cover.1.trans left.1, left.2.trans_le cover.2.1⟩
    ⟨cover.1.trans right.1, right.2.trans_le cover.2.1⟩

theorem item_covered (cover : Covers c s e) (inside : s ≤ i ∧ i < e) : item c v i = .ok (v i) :=
  if_pos ⟨cover.1.trans inside.1, inside.2.trans_le cover.2.1⟩

theorem comp_swap (k : Int) :
    (v ∘ Equiv.swap i j) k = if k = i then v j else if k = j then v i else v k := by
  rw [Function.comp_apply, Equiv.swap_apply_def]
  split_ifs <;> rfl

variable {compare : α → α → Ordering}

def Sorted (compare : α → α → Ordering) (v : Cells α) (s e : Int) : Prop :=
  ∀ i j, s ≤ i → i < j → j < e → (compare (v i) (v j)).isLE

theorem each_fuel {β : Type} {m : Nat → Context → Outcome β} {b : β} {k : Int} (le : 0 ≤ k)
    (runs : ∀ (fuel : Nat) c, k ≤ fuel → Covers c s e → m (fuel + 1) c = .ok b) :
    ∀ (fuel : Nat) c, k < fuel → Covers c s e → m fuel c = .ok b
  | 0, _, enough, _ => absurd enough (by omega)
  | fuel + 1, c, enough, cover => runs fuel c (by omega) cover

section Insertion
variable [Std.TransCmp compare]

omit [Std.TransCmp compare] in
theorem isLE_of_not_gt {x y : α} (h : compare x y ≠ .gt) : (compare x y).isLE := by
  cases eq : compare x y with
  | gt => exact absurd eq h
  | lt => rfl
  | eq => rfl

theorem isLE_of_gt {x y : α} (h : compare x y = .gt) : (compare y x).isLE := by
  have swapped : compare y x = (compare x y).swap := Std.OrientedCmp.eq_swap
  rw [swapped, h]
  rfl

/-- `inner` brings the element at `j` to its place among those before it. -/
theorem inner_spec (range : s ≤ j ∧ j ≤ i ∧ i < e)
    (order : ∀ a b, s ≤ a → a < b → b ≤ i → b ≠ j → (compare (v a) (v b)).isLE) :
    ∃ v', (∀ (fuel : Nat) c, j - s < fuel → Covers c s e → inner compare c s fuel v j = .ok v') ∧
      Rearranged s e v v' ∧ Sorted compare v' s (i + 1) := by
  induction hm : (j - s).toNat generalizing v j with
  | zero =>
    have first : j = s := by omega
    refine ⟨v, each_fuel (by omega) fun fuel c more cover => ?_, .refl v, fun a b left less right =>
      order a b left less (by omega) (by omega)⟩
    rw [inner, if_pos first]
  | succ m ih =>
    have notFirst : j ≠ s := by omega
    have before : s ≤ j - 1 ∧ j - 1 < e := by omega
    by_cases greater : compare (v (j - 1)) (v j) = .gt
    · have less := isLE_of_gt greater
      have order' : ∀ a b, s ≤ a → a < b → b ≤ i → b ≠ j - 1 →
          (compare ((v ∘ Equiv.swap j (j - 1)) a) ((v ∘ Equiv.swap j (j - 1)) b)).isLE := by
        intro a b left lower right other
        simp only [comp_swap]
        by_cases here : b = j
        · rw [if_pos here]
          by_cases pred : a = j - 1
          · rw [if_neg (by omega), if_pos pred]
            exact less
          · rw [if_neg (by omega), if_neg pred]
            exact order a (j - 1) left (by omega) (by omega) (by omega)
        · rw [if_neg here, if_neg other]
          by_cases atJ : a = j
          · rw [if_pos atJ]
            exact order (j - 1) b before.1 (by omega) right here
          · rw [if_neg atJ]
            by_cases pred : a = j - 1
            · rw [if_pos pred]
              exact order j b range.1 (by omega) right here
            · rw [if_neg pred]
              exact order a b left lower right here
      obtain ⟨v', runs, moved, sorted⟩ := ih (by omega) order' (by omega)
      refine ⟨v', each_fuel (by omega) fun fuel c more cover => ?_, .trans (.swap (by omega) before) moved,
        sorted⟩
      simp only [inner, if_neg notFirst, item_covered cover before, item_covered cover
        (show s ≤ j ∧ j < e by omega), ok_bind, if_pos greater,
        swap_covered cover (show s ≤ j ∧ j < e by omega) before]
      exact runs fuel c (by omega) cover
    · refine ⟨v, each_fuel (by omega) fun fuel c more cover => ?_, .refl v,
        fun a b left lower right => ?_⟩
      · simp only [inner, if_neg notFirst, item_covered cover before, item_covered cover
          (show s ≤ j ∧ j < e by omega), ok_bind, if_neg greater]
      · by_cases here : b = j
        · rw [here]
          by_cases pred : a = j - 1
          · rw [pred]
            exact isLE_of_not_gt greater
          · exact Std.TransCmp.isLE_trans
              (order a (j - 1) left (by omega) (by omega) (by omega)) (isLE_of_not_gt greater)
        · exact order a b left lower (by omega) here

variable (compare) in
theorem outer_spec (range : s < i ∧ i ≤ e) (sorted : Sorted compare v s i) :
    ∃ v', (∀ (fuel : Nat) c, e - i < fuel → Covers c s e → outer compare c s e fuel v i = .ok v') ∧
      Rearranged s e v v' ∧ Sorted compare v' s e := by
  induction hm : (e - i).toNat generalizing v i with
  | zero =>
    obtain rfl : i = e := by omega
    refine ⟨v, each_fuel (by omega) fun fuel c more cover => ?_, .refl v, sorted⟩
    rw [outer, if_neg (lt_irrefl _)]
  | succ m ih =>
    obtain ⟨v₁, runs₁, moved₁, sorted₁⟩ := inner_spec (v := v) (s := s) (e := e) (i := i) (j := i)
      (by omega) fun a b left lower right other => sorted a b left lower (by omega)
    obtain ⟨v', runs, moved, sorted'⟩ := ih (by omega) sorted₁ (by omega)
    refine ⟨v', each_fuel (by omega) fun fuel c more cover => ?_, moved₁.trans moved, sorted'⟩
    have rounds := cover.2.2
    rw [outer, if_pos (by omega), runs₁ c.rounds c (by omega) cover, ok_bind]
    exact runs fuel c (by omega) cover

variable (compare) in
theorem insertSort_spec (le : s ≤ e) :
    ∃ v', (∀ c, Covers c s e → insertSort compare c v s (e - s) = .ok v') ∧
      Rearranged s e v v' ∧ Sorted compare v' s e := by
  by_cases single : e ≤ s
  · refine ⟨v, fun c cover => ?_, .refl v, fun i j left less right => by omega⟩
    obtain ⟨fuel, eq⟩ : ∃ k, c.rounds = k + 1 := ⟨c.rounds - 1, by have := cover.2.2; omega⟩
    rw [insertSort, eq, outer, if_neg (by omega)]
  · obtain ⟨v', runs, moved, sorted⟩ := outer_spec compare (v := v) (s := s) (e := e)
      (i := s + 1) (by omega) fun i j left less right => by omega
    refine ⟨v', fun c cover => ?_, moved, sorted⟩
    rw [insertSort, show s + (e - s) = e by omega]
    exact runs c.rounds c (by have := cover.2.2; omega) cover

end Insertion

section Partition

variable (compare) in
theorem med3_spec {x y z : Int} (hx : s ≤ x ∧ x < e) (hy : s ≤ y ∧ y < e) (hz : s ≤ z ∧ z < e) :
    ∃ m, (∀ c, Covers c s e → med3 compare c v x y z = .ok m) ∧ s ≤ m ∧ m < e := by
  suffices found : ∃ m, (∀ c, Covers c s e → med3 compare c v x y z = .ok m) ∧
      (m = x ∨ m = y ∨ m = z) by
    obtain ⟨m, runs, rfl | rfl | rfl⟩ := found
    · exact ⟨m, runs, hx⟩
    · exact ⟨m, runs, hy⟩
    · exact ⟨m, runs, hz⟩
  by_cases lt : compare (v x) (v z) = .lt
  all_goals
    cases first : compare (v x) (v y)
    all_goals
      cases second : compare (v y) (v z)
      all_goals
        refine ⟨_, fun c cover => by
          simp only [med3, item_covered cover hx, item_covered cover hy, item_covered cover hz,
            ok_bind, first, second, lt, if_true, if_false]
          rfl, by simp⟩

variable (compare) in
theorem getPivot_spec (less : s < e) :
    ∃ m, (∀ c, Covers c s e → getPivot compare c v s (e - s) = .ok m) ∧ s ≤ m ∧ m < e := by
  by_cases few : e - s ≤ 7
  · exact ⟨_, fun c _ => if_pos few, by omega, by omega⟩
  by_cases some : e - s ≤ 40
  · obtain ⟨m, runs, inside⟩ := med3_spec compare (v := v) (s := s) (e := e) (x := s)
      (y := s + (e - s) / 2) (z := s + (e - s) - 1) (by omega) (by omega) (by omega)
    exact ⟨m, fun c cover => by simp only [getPivot, if_neg few, if_pos some, runs c cover], inside⟩
  · obtain ⟨p1, runs1, inside1⟩ := med3_spec compare (v := v) (s := s) (e := e) (x := s)
      (y := s + (e - s) / 8) (z := s + 2 * ((e - s) / 8)) (by omega) (by omega) (by omega)
    obtain ⟨pm, runsM, insideM⟩ := med3_spec compare (v := v) (s := s) (e := e)
      (x := s + (e - s) / 2 - (e - s) / 8) (y := s + (e - s) / 2)
      (z := s + (e - s) / 2 + (e - s) / 8) (by omega) (by omega) (by omega)
    obtain ⟨pn, runsN, insideN⟩ := med3_spec compare (v := v) (s := s) (e := e)
      (x := s + (e - s) - 1 - 2 * ((e - s) / 8)) (y := s + (e - s) - 1 - (e - s) / 8)
      (z := s + (e - s) - 1) (by omega) (by omega) (by omega)
    obtain ⟨m, runs, inside⟩ := med3_spec compare (v := v) inside1 insideM insideN
    refine ⟨m, fun c cover => ?_, inside⟩
    simp only [getPivot, if_neg few, if_neg some, runs1 c cover, runsM c cover, runsN c cover,
      ok_bind, runs c cover]

/-- The four blocks around what is not yet partitioned, the places from `pb` to `pc`. -/
structure Zones (compare : α → α → Ordering) (a e : Int) (p : α) (v : Cells α) (b : Blocks) :
    Prop where
  order : a < b.pa ∧ b.pa ≤ b.pb ∧ b.pb ≤ b.pc + 1 ∧ b.pc ≤ b.pd ∧ b.pd < e
  pivot : v a = p
  left : ∀ k, a ≤ k → k < b.pa → compare (v k) p = .eq
  low : ∀ k, b.pa ≤ k → k < b.pb → compare (v k) p = .lt
  high : ∀ k, b.pc < k → k ≤ b.pd → compare (v k) p = .gt
  right : ∀ k, b.pd < k → k < e → compare (v k) p = .eq

variable {p : α} {pa pb pc pd : Int}

theorem Zones.swap_left (zones : Zones compare s e p v ⟨pa, pb, pc, pd⟩)
    (found : compare (v pb) p = .eq) (more : pb ≤ pc) :
    Zones compare s e p (v ∘ Equiv.swap pa pb) ⟨pa + 1, pb + 1, pc, pd⟩ := by
  obtain ⟨order, pivot, left, low, high, right⟩ := zones
  constructor
  all_goals simp only [comp_swap] at *
  all_goals grind

theorem Zones.swap_right (zones : Zones compare s e p v ⟨pa, pb, pc, pd⟩)
    (found : compare (v pc) p = .eq) (more : pb ≤ pc) :
    Zones compare s e p (v ∘ Equiv.swap pc pd) ⟨pa, pb, pc - 1, pd - 1⟩ := by
  obtain ⟨order, pivot, left, low, high, right⟩ := zones
  constructor
  all_goals simp only [comp_swap] at *
  all_goals grind

theorem Zones.swap_middle (zones : Zones compare s e p v ⟨pa, pb, pc, pd⟩)
    (large : compare (v pb) p = .gt) (small : compare (v pc) p = .lt) (more : pb ≤ pc) :
    Zones compare s e p (v ∘ Equiv.swap pb pc) ⟨pa, pb + 1, pc - 1, pd⟩ := by
  obtain ⟨order, pivot, left, low, high, right⟩ := zones
  constructor
  all_goals simp only [comp_swap] at *
  all_goals grind

theorem bottom_spec (zones : Zones compare s e p v ⟨pa, pb, pc, pd⟩) :
    ∃ v' pa' pb', (∀ (fuel : Nat) c, pc - pb + 1 < fuel → Covers c s e →
        bottom compare c s pc fuel v pa pb = .ok (v', pa', pb')) ∧
      Rearranged s e v v' ∧ Zones compare s e p v' ⟨pa', pb', pc, pd⟩ ∧ pb ≤ pb' ∧
      (pb' ≤ pc → compare (v' pb') p = .gt) := by
  induction hm : (pc - pb + 1).toNat generalizing v pa pb with
  | zero =>
    have order := zones.order
    simp only at order
    refine ⟨v, pa, pb, each_fuel (by omega) fun fuel c more cover => ?_, .refl v, zones, le_rfl,
      fun le => absurd le (by omega)⟩
    rw [bottom, if_pos (by omega)]
  | succ m ih =>
    obtain ⟨hpa, hpb, hpc, hpd, he⟩ := zones.order
    simp only at hpa hpb hpc hpd he
    have more : ¬pb > pc := by omega
    have here : s ≤ pb ∧ pb < e := by omega
    have first : s ≤ s ∧ s < e := by omega
    have step (c : Context) (cover : Covers c s e) (fuel : Nat) :
        bottom compare c s pc (fuel + 1) v pa pb = match compare (v pb) p with
          | .gt => .ok (v, pa, pb)
          | .lt => bottom compare c s pc fuel v pa (pb + 1)
          | .eq => bottom compare c s pc fuel (v ∘ Equiv.swap pa pb) (pa + 1) (pb + 1) := by
      rw [bottom, if_neg more, item_covered cover here, item_covered cover first, ok_bind, ok_bind,
        zones.pivot, swap_covered cover (show s ≤ pa ∧ pa < e by omega) here]
      rfl
    cases found : compare (v pb) p with
    | gt =>
      refine ⟨v, pa, pb, each_fuel (by omega) fun fuel c enough cover => ?_, .refl v, zones, le_rfl,
        fun _ => found⟩
      rw [step c cover, found]
    | lt =>
      have zones' : Zones compare s e p v ⟨pa, pb + 1, pc, pd⟩ :=
        { zones with
          order := by simp only; omega
          low := fun k l r => by
            rcases eq_or_ne k pb with rfl | other
            · exact found
            · exact zones.low k l (by simp only at r ⊢; omega) }
      obtain ⟨v', pa', pb', runs, moved, zones'', le, stop⟩ := ih zones' (by omega)
      refine ⟨v', pa', pb', each_fuel (by omega) fun fuel c enough cover => ?_, moved, zones'',
        by omega, stop⟩
      rw [step c cover, found]
      exact runs fuel c (by omega) cover
    | eq =>
      have zones' := zones.swap_left found (by omega)
      obtain ⟨v', pa', pb', runs, moved, zones'', le, stop⟩ := ih zones' (by omega)
      refine ⟨v', pa', pb', each_fuel (by omega) fun fuel c enough cover => ?_,
        .trans (.swap (by omega) here) moved, zones'', by omega, stop⟩
      rw [step c cover, found]
      exact runs fuel c (by omega) cover

theorem top_spec (zones : Zones compare s e p v ⟨pa, pb, pc, pd⟩) :
    ∃ v' pc' pd', (∀ (fuel : Nat) c, pc - pb + 1 < fuel → Covers c s e →
        top compare c s pb fuel v pc pd = .ok (v', pc', pd')) ∧
      Rearranged s e v v' ∧ Zones compare s e p v' ⟨pa, pb, pc', pd'⟩ ∧ pc' ≤ pc ∧
      (pb ≤ pc' → compare (v' pc') p = .lt) ∧ ∀ k, k ≤ pc' → v' k = v k := by
  induction hm : (pc - pb + 1).toNat generalizing v pc pd with
  | zero =>
    have order := zones.order
    simp only at order
    refine ⟨v, pc, pd, each_fuel (by omega) fun fuel c more cover => ?_, .refl v, zones, le_rfl,
      fun le => absurd le (by omega), fun _ _ => rfl⟩
    rw [top, if_pos (by omega)]
  | succ m ih =>
    obtain ⟨hpa, hpb, hpc, hpd, he⟩ := zones.order
    simp only at hpa hpb hpc hpd he
    have more : ¬pb > pc := by omega
    have here : s ≤ pc ∧ pc < e := by omega
    have first : s ≤ s ∧ s < e := by omega
    have step (c : Context) (cover : Covers c s e) (fuel : Nat) :
        top compare c s pb (fuel + 1) v pc pd = match compare (v pc) p with
          | .lt => .ok (v, pc, pd)
          | .gt => top compare c s pb fuel v (pc - 1) pd
          | .eq => top compare c s pb fuel (v ∘ Equiv.swap pc pd) (pc - 1) (pd - 1) := by
      rw [top, if_neg more, item_covered cover here, item_covered cover first, ok_bind, ok_bind,
        zones.pivot, swap_covered cover here (show s ≤ pd ∧ pd < e by omega)]
      rfl
    cases found : compare (v pc) p with
    | lt =>
      refine ⟨v, pc, pd, each_fuel (by omega) fun fuel c enough cover => ?_, .refl v, zones, le_rfl,
        fun _ => found, fun _ _ => rfl⟩
      rw [step c cover, found]
    | gt =>
      have zones' : Zones compare s e p v ⟨pa, pb, pc - 1, pd⟩ :=
        { zones with
          order := by simp only; omega
          high := fun k l r => by
            rcases eq_or_ne k pc with rfl | other
            · exact found
            · exact zones.high k (by simp only at l ⊢; omega) r }
      obtain ⟨v', pc', pd', runs, moved, zones'', le, stop, same⟩ := ih zones' (by omega)
      refine ⟨v', pc', pd', each_fuel (by omega) fun fuel c enough cover => ?_, moved, zones'',
        by omega, stop, same⟩
      rw [step c cover, found]
      exact runs fuel c (by omega) cover
    | eq =>
      obtain ⟨v', pc', pd', runs, moved, zones'', le, stop, same⟩ :=
        ih (zones.swap_right found (by omega)) (by omega)
      refine ⟨v', pc', pd', each_fuel (by omega) fun fuel c enough cover => ?_,
        .trans (.swap here (by omega)) moved, zones'', by omega, stop, fun k before => ?_⟩
      · rw [step c cover, found]
        exact runs fuel c (by omega) cover
      · rw [same k before, comp_swap, if_neg (by omega), if_neg (by omega)]

theorem split_spec (b : Blocks) (zones : Zones compare s e p v b) :
    ∃ v' b', (∀ (fuel : Nat) c, b.pc - b.pb + 1 < fuel → Covers c s e →
        split compare c s fuel v b = .ok (v', b')) ∧
      Rearranged s e v v' ∧ Zones compare s e p v' b' ∧ b'.pb = b'.pc + 1 := by
  induction hm : (b.pc - b.pb + 1).toNat using Nat.strong_induction_on generalizing v b with
  | _ m ih =>
    obtain ⟨pa, pb, pc, pd⟩ := b
    obtain ⟨v₁, pa', pb', runs₁, moved₁, zones₁, le₁, large⟩ := bottom_spec zones
    obtain ⟨v₂, pc', pd', runs₂, moved₂, zones₂, le₂, small, same⟩ := top_spec zones₁
    obtain ⟨hpa, hpb, hpc, hpd, he⟩ := zones.order
    obtain ⟨hpa', hpb', hpc', hpd', he'⟩ := zones₂.order
    simp only at *
    have step (c : Context) (cover : Covers c s e) (fuel : Nat) :
        split compare c s (fuel + 1) v ⟨pa, pb, pc, pd⟩ =
          if pb' > pc' then .ok (v₂, ⟨pa', pb', pc', pd'⟩)
          else swap c v₂ pb' pc' >>= fun v =>
            split compare c s fuel v ⟨pa', pb' + 1, pc' - 1, pd'⟩ := by
      have rounds := cover.2.2
      rw [split, runs₁ c.rounds c (by omega) cover, ok_bind]
      simp only [runs₂ c.rounds c (by omega) cover, ok_bind]
    by_cases met : pb' > pc'
    · refine ⟨v₂, ⟨pa', pb', pc', pd'⟩, each_fuel (by omega) fun fuel c enough cover => ?_,
        moved₁.trans moved₂, zones₂, by simp only; omega⟩
      rw [step c cover, if_pos met]
    · have large' : compare (v₂ pb') p = .gt := by
        rw [same pb' (by omega)]
        exact large (by omega)
      obtain ⟨v', b', runs, moved, zones', done⟩ := ih _ (by simp only; omega) ⟨_, _, _, _⟩
        (zones₂.swap_middle large' (small (by omega)) (by omega)) rfl
      have moved₃ := (moved₁.trans moved₂).trans (Rearranged.swap (i := pb') (j := pc') (by omega)
        (by omega))
      refine ⟨v', b', each_fuel (by omega) fun fuel c enough cover => ?_, moved₃.trans moved,
        zones', done⟩
      rw [step c cover, if_neg met, swap_covered cover (by omega) (by omega), ok_bind]
      exact runs fuel c (by simp only; omega) cover

theorem vecswap_spec (r : Nat) (apart : i + r ≤ j) (left : s ≤ i) (right : j + r ≤ e) :
    ∃ v', (∀ (fuel : Nat) c, r < fuel → Covers c s e → vecswap c fuel v i j r = .ok v') ∧
      Rearranged s e v v' ∧ ∀ k, v' k =
        if i ≤ k ∧ k < i + r then v (k - i + j) else if j ≤ k ∧ k < j + r then v (k - j + i)
        else v k := by
  induction r generalizing v i j with
  | zero =>
    refine ⟨v, fun fuel c enough cover => ?_, .refl v, fun k => ?_⟩
    · obtain ⟨fuel, rfl⟩ : ∃ k, fuel = k + 1 := ⟨fuel - 1, by omega⟩
      exact if_pos rfl
    · rw [if_neg (by omega), if_neg (by omega)]
  | succ r ih =>
    obtain ⟨v', runs, moved, places⟩ := ih (v := v ∘ Equiv.swap i j) (i := i + 1) (j := j + 1)
      (by omega) (by omega) (by omega)
    refine ⟨v', fun fuel c enough cover => ?_, .trans (.swap (by omega) (by omega)) moved,
      fun k => ?_⟩
    · obtain ⟨fuel, rfl⟩ : ∃ k, fuel = k + 1 := ⟨fuel - 1, by omega⟩
      rw [vecswap, if_neg (by omega), swap_covered cover (by omega) (by omega), ok_bind,
        show ((r + 1 : Nat) : Int) - 1 = r by omega]
      exact runs fuel c (by omega) cover
    · rw [places]
      simp only [comp_swap]
      grind

/-- Exchanging as many places as the smaller of two adjacent blocks has exchanges the blocks. -/
theorem exchange_spec {P Q : α → Prop} {m l : Int} (left : s ≤ i ∧ i ≤ m) (right : m ≤ l ∧ l ≤ e)
    (first : ∀ k, i ≤ k → k < m → P (v k)) (second : ∀ k, m ≤ k → k < l → Q (v k)) :
    ∃ v', (∀ c, Covers c s e → vecswap c c.rounds v i (l - min (m - i) (l - m)) (min (m - i) (l - m))
        = .ok v') ∧ Rearranged i l v v' ∧
      (∀ k, i ≤ k → k < i + (l - m) → Q (v' k)) ∧ ∀ k, i + (l - m) ≤ k → k < l → P (v' k) := by
  obtain ⟨r, eq⟩ := Int.eq_ofNat_of_zero_le (a := min (m - i) (l - m)) (by omega)
  rw [eq]
  obtain ⟨v', runs, moved, places⟩ := vecswap_spec (v := v) (s := i) (e := l) (i := i) (j := l - r)
    r (by omega) le_rfl (by omega)
  refine ⟨v', fun c cover => ?_, moved, fun k low high => ?_, fun k low high => ?_⟩
  · have rounds := cover.2.2
    exact runs c.rounds c (by omega) ⟨by have := cover.1; omega, by have := cover.2.1; omega, by omega⟩
  · rw [places]
    split_ifs with here there
    · exact second _ (by omega) (by omega)
    · omega
    · exact second _ (by omega) (by omega)
  · rw [places]
    split_ifs with here there
    · omega
    · exact first _ (by omega) (by omega)
    · exact first _ (by omega) (by omega)

/-- Around the pivot: `small` elements below it, then those equal to it, then `large` above it. -/
structure Parted (compare : α → α → Ordering) (p : α) (v : Cells α) (s e small large : Int) :
    Prop where
  sizes : 0 ≤ small ∧ 0 ≤ large ∧ small + large < e - s
  low : ∀ k, s ≤ k → k < s + small → compare (v k) p = .lt
  middle : ∀ k, s + small ≤ k → k < e - large → compare (v k) p = .eq
  high : ∀ k, e - large ≤ k → k < e → compare (v k) p = .gt

variable (compare) in
theorem partition_spec [Std.ReflCmp compare] (more : 1 < e - s) :
    ∃ v' b, (∀ c, Covers c s e → partition compare c v s (e - s) = .ok (v', b)) ∧
      Rearranged s e v v' ∧ ∃ p, Parted compare p v' s e (b.pb - b.pa) (b.pd - b.pc) := by
  obtain ⟨pm, chosen, inside⟩ := getPivot_spec compare (v := v) (s := s) (e := e)
    (by omega)
  have zones : Zones compare s e (v pm) (v ∘ Equiv.swap s pm) ⟨s + 1, s + 1, e - 1, e - 1⟩ := by
    have pivot : (v ∘ Equiv.swap s pm) s = v pm := by rw [comp_swap, if_pos rfl]
    refine ⟨by simp only; omega, pivot, fun k l r => ?_, ?_, ?_, ?_⟩
    · obtain rfl : k = s := by simp only at r; omega
      rw [pivot]
      exact Std.ReflCmp.compare_self
    all_goals
      intro k l r
      simp only at l r
      omega
  obtain ⟨v₁, ⟨pa, pb, pc, pd⟩, runs₁, moved₁, zones₁, met⟩ := split_spec _ zones
  obtain ⟨order, -, left, low, high, right⟩ := zones₁
  simp only at *
  obtain ⟨v₂, runs₂, moved₂, low₂, left₂⟩ := exchange_spec (s := s) (e := e)
    (P := (compare · (v pm) = .eq)) (Q := (compare · (v pm) = .lt)) ⟨le_rfl, by omega⟩
    (by omega) left low
  have rest (k : Int) (after : pb ≤ k) : v₂ k = v₁ k := moved₂.outside (by omega)
  obtain ⟨v₃, runs₃, moved₃, right₃, high₃⟩ := exchange_spec (s := s) (e := e)
    (v := v₂) (i := pb) (m := pd + 1) (l := e) (P := (compare · (v pm) = .gt))
    (Q := (compare · (v pm) = .eq)) (by omega) (by omega)
    (fun k l r => by rw [rest k l]; exact high k (by omega) (by omega))
    (fun k l r => by rw [rest k (by omega)]; exact right k (by omega) r)
  have front (k : Int) (before : k < pb) : v₃ k = v₂ k := moved₃.outside (by omega)
  have moved := ((Rearranged.swap (v := v) (i := s) (j := pm) (by omega) inside).trans moved₁).trans
    ((moved₂.mono le_rfl (by omega)).trans (moved₃.mono (by omega) le_rfl))
  have parted : Parted compare (v pm) v₃ s e (pb - pa) (pd - pc) := by
    refine ⟨by omega, fun k l r => ?_, fun k l r => ?_, fun k l r => high₃ k (by omega) r⟩
    · rw [front k (by omega)]
      exact low₂ k l (by omega)
    · by_cases before : k < pb
      · rw [front k before]
        exact left₂ k l before
      · exact right₃ k (by omega) (by omega)
  refine ⟨v₃, ⟨pa, pb, pc, pd⟩, fun c cover => ?_, moved, v pm, parted⟩
  have rounds := cover.2.2
  rw [partition, chosen c cover, ok_bind, swap_covered cover (by omega) inside, ok_bind,
    show s + (e - s - 1) = e - 1 by omega, runs₁ c.rounds c (by omega) cover, ok_bind]
  simp only [show s + (e - s) = e by omega, show pd - pc = pd + 1 - pb by omega,
    show e - pd - 1 = e - (pd + 1) by omega, runs₂ c cover, runs₃ c cover, ok_bind]
  rfl

end Partition

theorem Covers.mono {s' e' : Int} (h : Covers c s e) (left : s ≤ s') (right : e' ≤ e) :
    Covers c s' e' := by
  obtain ⟨low, high, rounds⟩ := h
  exact ⟨by omega, by omega, by omega⟩

/-- Blocks in order around the pivot make an ordered range. -/
theorem Parted.sorted [Std.TransCmp compare] {p : α} {small large : Int}
    (parted : Parted compare p v s e small large) (first : Sorted compare v s (s + small))
    (last : Sorted compare v (e - large) e) : Sorted compare v s e := by
  intro i j left less right
  by_cases low : j < s + small
  · exact first i j left less low
  by_cases high : e - large ≤ i
  · exact last i j high less right
  have below : (compare (v i) p).isLE := by
    by_cases here : i < s + small
    · rw [parted.low i left here]
      rfl
    · rw [parted.middle i (by omega) (by omega)]
      rfl
  have above : (compare p (v j)).isLE := by
    have swapped : compare p (v j) = (compare (v j) p).swap := Std.OrientedCmp.eq_swap
    rw [swapped]
    by_cases here : j < e - large
    · rw [parted.middle j (by omega) here]
      rfl
    · rw [parted.high j (by omega) right]
      rfl
  exact Std.TransCmp.isLE_trans below above

variable (compare) in
theorem sort_spec [Std.TransCmp compare] (le : s ≤ e) :
    ∃ v', (∀ (fuel : Nat) c, e - s < fuel → Covers c s e →
        sort compare c fuel v s (e - s) = .ok v') ∧
      Rearranged s e v v' ∧ Sorted compare v' s e := by
  induction hm : (e - s).toNat using Nat.strong_induction_on generalizing v s e with
  | _ m ih =>
    by_cases few : e - s < 7
    · obtain ⟨v', runs, spec⟩ := insertSort_spec compare (v := v) le
      refine ⟨v', each_fuel (by omega) fun fuel c enough cover => ?_, spec⟩
      rw [sort, if_pos few, runs c cover]
    · obtain ⟨v₁, ⟨pa, pb, pc, pd⟩, runs₁, moved₁, p, parted⟩ := partition_spec compare (v := v) (s := s) (e := e) (by omega)
      obtain ⟨sizes, low, middle, high⟩ := parted
      simp only at *
      -- a block of one element is left alone
      have block (v : Cells α) (a l : Int) (size : 0 ≤ l ∧ l < e - s) :
          ∃ v', (∀ (fuel : Nat) c, e - s ≤ fuel → Covers c a (a + l) →
              (if l > 1 then sort compare c fuel v a l else .ok v) = .ok v') ∧
            Rearranged a (a + l) v v' ∧ Sorted compare v' a (a + l) := by
        by_cases single : l > 1
        · obtain ⟨v', runs, spec⟩ := ih l.toNat (by omega) (v := v) (s := a) (e := a + l) (by omega)
            (by omega)
          refine ⟨v', fun fuel c enough cover => ?_, spec⟩
          rw [if_pos single, ← runs fuel c (by omega) cover, show a + l - a = l by omega]
        · exact ⟨v, fun fuel c enough cover => if_neg single, .refl v, fun i j _ _ _ => by omega⟩
      obtain ⟨v₂, runs₂, moved₂, sorted₂⟩ := block v₁ s (pb - pa) (by omega)
      obtain ⟨v₃, runs₃, moved₃, sorted₃⟩ := block v₂ (e - (pd - pc)) (pd - pc) (by omega)
      rw [show e - (pd - pc) + (pd - pc) = e by omega] at runs₃ moved₃ sorted₃
      have front (k : Int) (before : k < e - (pd - pc)) : v₃ k = v₂ k := moved₃.outside (by omega)
      have back (k : Int) (after : s + (pb - pa) ≤ k) : v₂ k = v₁ k := moved₂.outside (by omega)
      have parted₃ : Parted compare p v₃ s e (pb - pa) (pd - pc) := by
        refine ⟨sizes, fun k l r => ?_, fun k l r => ?_,
          moved₃.all (P := (compare · p = .gt)) fun k l r => ?_⟩
        · rw [front k (by omega)]
          exact moved₂.all (P := (compare · p = .lt)) low k l r
        · rw [front k r, back k l]
          exact middle k l r
        · rw [back k (by omega)]
          exact high k l r
      have moved := moved₁.trans ((moved₂.mono le_rfl (by omega)).trans
        (moved₃.mono (by omega) le_rfl))
      refine ⟨v₃, each_fuel (by omega) fun fuel c enough cover => ?_, moved,
        parted₃.sorted (fun i j l less r => ?_) sorted₃⟩
      · rw [sort, if_neg few, runs₁ c cover, ok_bind]
        simp only [show s + (e - s) - (pd - pc) = e - (pd - pc) by omega]
        have first := runs₂ fuel c (by omega) (cover.mono le_rfl (by omega))
        have last := runs₃ fuel c (by omega) (cover.mono (by omega) le_rfl)
        by_cases single : pb - pa > 1
        · rw [if_pos single] at first ⊢
          rw [first, ok_bind]
          exact last
        · rw [if_neg single] at first ⊢
          cases first
          exact last
      · rw [front i (by omega), front j (by omega)]
        exact sorted₂ i j l less r

/-- `sort_range` orders the range and moves nothing else, and it uses no index outside the range:
the result is the same when only those of the range are accepted. -/
theorem sortRange_sorts [Std.TransCmp compare] (v : Cells α) (start n : Int) (size : 0 ≤ n) :
    ∃ v', (∀ c : Context, c.lo ≤ start → start + n ≤ c.hi → n < c.rounds →
        sortRange compare c v start n = .ok v') ∧
      Rearranged start (start + n) v v' ∧ Sorted compare v' start (start + n) := by
  obtain ⟨v', runs, spec⟩ := sort_spec compare (v := v) (s := start) (e := start + n)
    (by omega)
  refine ⟨v', fun c low high rounds => ?_, spec⟩
  rw [← runs c.rounds c (by omega) ⟨low, high, by omega⟩, show start + n - start = n by omega]
  rfl

theorem sortRange_sorts_pair :
    ∃ v', (∀ c : Context, c.lo ≤ 0 → 0 + 2 ≤ c.hi → (2 : Int) < c.rounds →
        sortRange Ord.compare c (fun k => if k = 0 then 5 else (3 : Nat)) 0 2 = .ok v') ∧
      Rearranged 0 (0 + 2) (fun k => if k = 0 then 5 else (3 : Nat)) v' ∧
      Sorted Ord.compare v' 0 (0 + 2) :=
  sortRange_sorts _ 0 2 (by decide)

end Mythryl.RwVectorQuicksort
