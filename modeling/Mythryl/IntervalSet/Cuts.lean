import Mythryl.IntervalSet.Model

/-! # Intersections, complements and filters -/

namespace Mythryl.IntervalSet
open Order

variable {Point : Type} [IntervalDomain Point]

section Intersect

variable {a b c s p q a1 b1 a2 b2 : Point} {l l1 l2 l1' l2' r r1 r2 : List (Interval Point)}

theorem normal_cons (normal : Normal ((a, b) :: r)) : Normal (cons s b r) := by
  unfold cons
  split
  · exact normal.2.2
  · rename_i nonempty
    exact ⟨not_lt.mp fun less => nonempty (compare_gt_iff_gt.mpr less), normal.2⟩

theorem Beyond.cons (beyond : Beyond c ((a, b) :: r)) (le : a ≤ s) : Beyond c (cons s b r) := by
  unfold IntervalSet.cons
  split
  · exact beyond.tail
  · exact beyond.tail.push (beyond.head.trans_le le)

def Meets (l1 l2 l : List (Interval Point)) : Prop :=
  Normal l ∧ ∀ c, Beyond c l1 ∨ Beyond c l2 → Beyond c l

theorem Meets.skip (meets : Meets l1' l2' l) (left : ∀ c, Beyond c l1 → Beyond c l1')
    (right : ∀ c, Beyond c l2 → Beyond c l2') : Meets l1 l2 l :=
  ⟨meets.1, fun c beyond => meets.2 c (beyond.imp (left c) (right c))⟩

theorem Meets.put (meets : Meets l1' l2' l) (le1 : a1 ≤ p) (le2 : a2 ≤ p) (le : p ≤ q)
    (beyond : Beyond q l1' ∨ Beyond q l2') (left : ∀ c, Beyond c ((a1, b1) :: r1) → Beyond c l1')
    (right : ∀ c, Beyond c ((a2, b2) :: r2) → Beyond c l2') :
    Meets ((a1, b1) :: r1) ((a2, b2) :: r2) ((p, q) :: l) := by
  refine ⟨⟨le, meets.2 q beyond, meets.1⟩, fun c beyond => .push ?_ ?_⟩
  · exact meets.2 c (beyond.imp (left c) (right c))
  · cases beyond with
    | inl beyond => exact beyond.head.trans_le le1
    | inr beyond => exact beyond.head.trans_le le2

theorem beyond_tail (c : Point) (beyond : Beyond c ((a, b) :: r)) : Beyond c r :=
  beyond.tail

theorem meets_intersect (normal1 : Normal l1) (normal2 : Normal l2) :
    Meets l1 l2 (intersect l1 l2) := by
  fun_induction intersect l1 l2 with
  | case1 l2 => exact ⟨trivial, fun c _ => beyond_nil⟩
  | case2 l1 => exact ⟨trivial, fun c _ => beyond_nil⟩
  | case3 a1 b1 r1 a2 b2 r2 first second ih =>
    exact (ih normal1.2.2 normal2).skip beyond_tail fun _ => id
  | case4 a1 b1 r1 a2 b2 r2 first second ih =>
    have equal := compare_eq_iff_eq.mp second
    exact (ih normal1.2.2 (normal_cons normal2)).put normal1.1 equal.ge le_rfl
      (.inl normal1.2.1) beyond_tail fun c beyond => beyond.cons (equal.ge.trans (le_succ b1))
  | case5 a1 b1 r1 a2 b2 r2 first second third ih =>
    have before := compare_lt_iff_lt.mp first
    have reaches := compare_gt_iff_gt.mp second
    exact (ih normal1.2.2 (normal_cons normal2)).put before.le le_rfl reaches.le
      (.inl normal1.2.1) beyond_tail fun c beyond => beyond.cons (reaches.le.trans (le_succ b1))
  | case6 a1 b1 r1 a2 b2 r2 first second third ih =>
    have before := compare_lt_iff_lt.mp first
    have reaches := compare_gt_iff_gt.mp second
    exact (ih normal1.2.2 normal2.2.2).put before.le le_rfl reaches.le (.inl normal1.2.1)
      beyond_tail beyond_tail
  | case7 a1 b1 r1 a2 b2 r2 first second third ih =>
    have before := compare_lt_iff_lt.mp first
    exact (ih (normal_cons normal1) normal2.2.2).put before.le le_rfl normal2.1
      (.inr normal2.2.1)
      (fun c beyond => beyond.cons (before.le.trans (normal2.1.trans (le_succ b2)))) beyond_tail
  | case8 a1 b1 r1 a2 b2 r2 first second ih =>
    have equal := compare_eq_iff_eq.mp first
    exact (ih normal1.2.2 (normal_cons normal2)).put le_rfl equal.ge normal1.1
      (.inl normal1.2.1) beyond_tail
      fun c beyond => beyond.cons (equal.ge.trans (normal1.1.trans (le_succ b1)))
  | case9 a1 b1 r1 a2 b2 r2 first second ih =>
    have equal := compare_eq_iff_eq.mp first
    exact (ih normal1.2.2 normal2.2.2).put le_rfl equal.ge normal1.1 (.inl normal1.2.1)
      beyond_tail beyond_tail
  | case10 a1 b1 r1 a2 b2 r2 first second ih =>
    have equal := compare_eq_iff_eq.mp first
    have less := compare_gt_iff_gt.mp second
    refine (ih ⟨succ_le_of_lt less, normal1.2⟩ normal2.2.2).put le_rfl equal.ge
      (equal.le.trans normal2.1) (.inr normal2.2.1) (fun c beyond => .push ?_ ?_)
      beyond_tail
    · exact beyond.tail
    · exact beyond.head.trans_le (equal.le.trans (normal2.1.trans (le_succ b2)))
  | case11 a1 b1 r1 a2 b2 r2 first second ih =>
    exact (ih normal1 normal2.2.2).skip (fun _ => id) beyond_tail
  | case12 a1 b1 r1 a2 b2 r2 first second ih =>
    have equal := compare_eq_iff_eq.mp second
    exact (ih (normal_cons normal1) normal2.2.2).put equal.ge normal2.1 le_rfl
      (.inr normal2.2.1) (fun c beyond => beyond.cons (equal.ge.trans (le_succ b2))) beyond_tail
  | case13 a1 b1 r1 a2 b2 r2 first second third ih =>
    have after := compare_gt_iff_gt.mp first
    exact (ih normal1.2.2 (normal_cons normal2)).put le_rfl after.le normal1.1
      (.inl normal1.2.1) beyond_tail
      fun c beyond => beyond.cons (after.le.trans (normal1.1.trans (le_succ b1)))
  | case14 a1 b1 r1 a2 b2 r2 first second third ih =>
    have after := compare_gt_iff_gt.mp first
    exact (ih normal1.2.2 normal2.2.2).put le_rfl after.le normal1.1 (.inl normal1.2.1)
      beyond_tail beyond_tail
  | case15 a1 b1 r1 a2 b2 r2 first second third ih =>
    have after := compare_gt_iff_gt.mp first
    have reaches := compare_gt_iff_gt.mp second
    exact (ih (normal_cons normal1) normal2.2.2).put le_rfl after.le reaches.le
      (.inr normal2.2.1) (fun c beyond => beyond.cons (reaches.le.trans (le_succ b2)))
      beyond_tail

end Intersect

@[grind =] def gaps (start : Point) : List (Interval Point) → List (Interval Point)
  | [] => if start < ⊤ then [(start, ⊤)] else []
  | (a, b) :: r => (start, pred a) :: gaps (succ b) r

section Complement

variable {a b c start : Point} {l r : List (Interval Point)}

theorem comp_eq (r l : List (Interval Point)) : comp start r l = l.reverse ++ gaps start r := by
  induction r generalizing start l with
  | nil =>
    rw [comp, gaps]
    split
    · rename_i less
      rw [if_pos (compare_lt_iff_lt.mp less), List.reverse_cons]
    · rename_i less
      rw [if_neg fun lt => less (compare_lt_iff_lt.mpr lt), List.append_nil]
  | cons i r ih =>
    rw [comp, ih, gaps, List.reverse_cons, List.append_assoc]
    rfl

theorem beyond_gaps (normal : Normal r) (starts : ∀ i ∈ r, start < i.1) (above : succ c < start) :
    Beyond c (gaps start r) := by
  induction r generalizing start with
  | nil =>
    rw [gaps]
    split
    · exact .push beyond_nil above
    · exact beyond_nil
  | cons i r ih =>
    obtain ⟨a, b⟩ := i
    refine (ih normal.2.2 normal.2.1 ?_).push above
    have less := starts (a, b) List.mem_cons_self
    exact above.trans (less.trans_le (normal.1.trans (le_succ b)))

theorem normal_gaps (normal : Normal r) (starts : ∀ i ∈ r, start < i.1) :
    Normal (gaps start r) := by
  induction r generalizing start with
  | nil =>
    rw [gaps]
    split
    · exact ⟨le_top, beyond_nil, trivial⟩
    · trivial
  | cons i r ih =>
    obtain ⟨a, b⟩ := i
    have less : start < a := starts (a, b) List.mem_cons_self
    have later := ih normal.2.2 normal.2.1
    refine ⟨le_pred_of_lt less, ?_, later⟩
    by_cases top : b = ⊤
    · -- nothing is left behind the last point
      subst top
      rw [normal.2.1.top, succ_top, gaps, if_neg (lt_irrefl _)]
      exact beyond_nil
    · apply beyond_gaps normal.2.2 normal.2.1
      rw [succ_pred_of_not_isMin (not_isMin_of_lt less)]
      exact normal.1.trans_lt (lt_succ_iff_ne_top.mpr top)

theorem normal_complement (normal : Normal l) : Normal (complement l) := by
  cases l with
  | nil => exact ⟨bot_le, beyond_nil, trivial⟩
  | cons i r =>
    obtain ⟨a, b⟩ := i
    have later : Normal (gaps (succ b) r) := normal_gaps normal.2.2 normal.2.1
    rw [complement]
    split
    · rename_i less
      have starts : ∀ i ∈ (a, b) :: r, (⊥ : Point) < i.1 := by
        intro i mem
        cases mem with
        | head => exact compare_lt_iff_lt.mp less
        | tail _ mem => exact bot_le.trans_lt (normal.2.1.lt mem)
      rw [comp_eq]
      exact normal_gaps normal starts
    · rw [comp_eq]
      exact later

end Complement

section Filter

variable {prior : Point → Bool} {a b c start item next last : Point}
  {k l l' r s : List (Interval Point)} {fuel : Nat}

theorem past_unfinished (below : last < ⊤) (fuel : Nat) :
    (∀ start item l, last ≤ item → lp prior fuel start item last l = throw .unfinished) ∧
      ∀ next l, last < next → scan prior fuel next last l = throw .unfinished := by
  induction fuel with
  | zero => exact ⟨fun _ _ _ _ => rfl, fun _ _ _ => rfl⟩
  | succ fuel ih =>
    have further {p : Point} (le : last ≤ p) : last < succ p :=
      (lt_succ_of_not_isMax (not_isMax_of_lt below)).trans_le (succ_le_succ le)
    have never {p : Point} (less : last < p) : ¬compare p last = .eq := fun equal =>
      less.ne' (compare_eq_iff_eq.mp equal)
    constructor
    · intro start item l le
      rw [lp]
      simp only [if_neg (never (further le))]
      split
      · exact ih.1 _ _ _ (further le).le
      · exact ih.2 _ _ (further (further le).le)
    · intro next l less
      rw [scan]
      simp only [if_neg (never less)]
      split
      · exact ih.1 _ _ _ less.le
      · exact ih.2 _ _ (further less.le)

def Collected (a b : Point) (k : List (Interval Point)) : Prop :=
  Normal k.reverse ∧ ∀ i ∈ k, a ≤ i.1 ∧ i.2 ≤ b

theorem collected_nil : Collected a b [] := by
  refine ⟨trivial, ?_⟩
  intro i mem
  cases mem

theorem Collected.single (le : a ≤ c) (le' : c ≤ b) : Collected a b [(a, c)] := by
  refine ⟨⟨le, beyond_nil, trivial⟩, ?_⟩
  intro i mem
  cases List.mem_singleton.mp mem
  exact ⟨le_rfl, le'⟩

theorem Collected.mono (collected : Collected c b k) (le : a ≤ c) : Collected a b k :=
  ⟨collected.1, fun i mem => ⟨le.trans (collected.2 i mem).1, (collected.2 i mem).2⟩⟩

theorem Collected.snoc (collected : Collected next b k) (le : a ≤ item) (above : succ item < next)
    (le' : item ≤ b) : Collected a b (k ++ [(a, item)]) := by
  constructor
  · rw [List.reverse_append]
    refine ⟨le, ?_, collected.1⟩
    intro i mem
    exact above.trans_le (collected.2 i (List.mem_reverse.mp mem)).1
  · intro i mem
    cases List.mem_append.mp mem with
    | inl mem =>
      exact ⟨le.trans ((le_succ item).trans (above.le.trans (collected.2 i mem).1)),
        (collected.2 i mem).2⟩
    | inr mem =>
      cases List.mem_singleton.mp mem
      exact ⟨le_rfl, le'⟩

theorem collects (fuel : Nat) :
    (∀ start item last l l', start ≤ item → (item < last ∨ item = ⊤ ∧ last = ⊤) →
      prior item = true → lp prior fuel start item last l = .ok l' →
        ∃ k, l' = k ++ l ∧ Collected start last k) ∧
    ∀ next last l l', next ≤ last → scan prior fuel next last l = .ok l' →
      ∃ k, l' = k ++ l ∧ Collected next last k := by
  induction fuel with
  | zero =>
    constructor
    · intro start item last l l' _ _ _ run
      cases run
    · intro next last l l' _ run
      cases run
  | succ fuel ih =>
    constructor
    · intro start item last l l' le inside passes run
      rw [lp] at run
      rcases inside with less | ⟨rfl, rfl⟩
      · have more : succ item ≤ last := succ_le_of_lt less
        have longer : start ≤ succ item := le.trans (le_succ item)
        by_cases next : prior (succ item) = true
        · simp only [if_pos next] at run
          split at run
          · rename_i equal
            cases run
            exact ⟨[(start, succ item)], rfl, .single longer more⟩
          · rename_i other
            have less' : succ item < last :=
              lt_of_le_of_ne more fun equal => other (compare_eq_iff_eq.mpr equal)
            exact ih.1 _ _ _ _ _ longer (.inl less') next run
        · simp only [if_neg next] at run
          by_cases less' : succ item < last
          · obtain ⟨k, rfl, collected⟩ := ih.2 _ _ _ _ (succ_le_of_lt less') run
            refine ⟨k ++ [(start, item)], by simp, collected.snoc le ?_ less.le⟩
            exact lt_succ_of_not_isMax (not_isMax_of_lt less')
          · -- the run ends before the last point, which is the last of the domain
            have equal : succ item = last := le_antisymm more (not_lt.mp less')
            by_cases top : last = ⊤
            · rw [equal, top, succ_top] at run
              rw [equal, top] at next
              cases fuel with
              | zero => cases run
              | succ fuel =>
                rw [scan, if_neg next, if_pos (compare_eq_iff_eq.mpr rfl)] at run
                cases run
                exact ⟨[(start, item)], rfl, .single le less.le⟩
            · rw [equal, (past_unfinished (lt_top_iff_ne_top.mpr top) fuel).2 _ _
                (lt_succ_iff_ne_top.mpr top)] at run
              cases run
      · simp only [succ_top, if_pos passes, if_pos (compare_eq_iff_eq.mpr rfl)] at run
        cases run
        exact ⟨[(start, ⊤)], rfl, .single le le_rfl⟩
    · intro next last l l' le run
      rw [scan] at run
      by_cases passes : prior next = true
      · rw [if_pos passes] at run
        by_cases less : next < last
        · exact ih.1 _ _ _ _ _ le_rfl (.inl less) passes run
        · have equal : next = last := le_antisymm le (not_lt.mp less)
          by_cases top : last = ⊤
          · exact ih.1 _ _ _ _ _ le_rfl (.inr ⟨equal.trans top, top⟩) passes run
          · rw [(past_unfinished (lt_top_iff_ne_top.mpr top) fuel).1 _ _ _ equal.ge] at run
            cases run
      · rw [if_neg passes] at run
        split at run
        · cases run
          exact ⟨[], rfl, collected_nil⟩
        · rename_i other
          have less : next < last :=
            lt_of_le_of_ne le fun equal => other (compare_eq_iff_eq.mpr equal)
          obtain ⟨k, rfl, collected⟩ := ih.2 _ _ _ _ (succ_le_of_lt less) run
          exact ⟨k, rfl, collected.mono (le_succ next)⟩

theorem normal_append (normal : Normal l) (normal' : Normal r)
    (between : ∀ i ∈ l, Beyond i.2 r) : Normal (l ++ r) := by
  induction l with
  | nil => exact normal'
  | cons i l ih =>
    obtain ⟨a, b⟩ := i
    refine ⟨normal.1, ?_, ih normal.2.2 fun i mem => between i (List.mem_cons_of_mem _ mem)⟩
    intro j mem
    cases List.mem_append.mp mem with
    | inl mem => exact normal.2.1 j mem
    | inr mem => exact between (a, b) List.mem_cons_self j mem

theorem filter'_ok (normal : Normal r) (run : filter' prior fuel r l = .ok s) :
    ∃ t, s = l.reverse ++ t ∧ Normal t ∧ ∀ c, Beyond c r → Beyond c t := by
  induction r generalizing l with
  | nil =>
    cases run
    exact ⟨[], (List.append_nil _).symm, trivial, fun c _ => beyond_nil⟩
  | cons i r ih =>
    obtain ⟨a, b⟩ := i
    obtain ⟨l', scanned, run⟩ := bind_eq_ok.mp run
    obtain ⟨k, rfl, collected⟩ := (collects fuel).2 a b l l' normal.1 scanned
    obtain ⟨t, rfl, normal', beyond⟩ := ih normal.2.2 run
    refine ⟨k.reverse ++ t, by simp, normal_append collected.1 normal' ?_, ?_⟩
    · intro i mem
      exact (beyond b normal.2.1).mono (collected.2 i (List.mem_reverse.mp mem)).2
    · intro c above j mem
      cases List.mem_append.mp mem with
      | inl mem => exact above.head.trans_le (collected.2 j (List.mem_reverse.mp mem)).1
      | inr mem => exact beyond c above.tail j mem

theorem normal_filter (normal : Normal l) (run : filter prior fuel l = .ok s) : Normal s := by
  obtain ⟨t, rfl, normal', -⟩ := filter'_ok normal run
  exact normal'

end Filter

/-! # The points of a set -/

def member : List (Interval Point) → Point → Bool
  | [], _ => false
  | (a, b) :: r, pt =>
      match compare a pt with
      | .eq => true
      | .gt => false
      | .lt =>
          match compare pt b with
          | .gt => member r pt
          | _ => true

def compareSets : List (Interval Point) → List (Interval Point) → Ordering
  | [], [] => .eq
  | (a1, b1) :: r1, (a2, b2) :: r2 =>
      match compare a1 a2 with
      | .eq =>
          match compare b1 b2 with
          | .eq => compareSets r1 r2
          | someOrder => someOrder
      | someOrder => someOrder
  | [], _ => .lt
  | _, [] => .gt

def isCovered (a b x y : Point) : Bool :=
  match compare a x with
  | .lt => false
  | _ =>
      match compare y b with
      | .lt => false
      | _ => true

def isSubset : List (Interval Point) → List (Interval Point) → Bool
  | [], _ => true
  | _, [] => false
  | (a1, b1) :: r1, (a2, b2) :: r2 =>
      if isCovered a1 b1 a2 b2 then
        isSubset r1 ((a2, b2) :: r2)
      else
        match compare b2 a1 with
        | .lt => isSubset ((a1, b1) :: r1) r2
        | _ => false
  termination_by l1 l2 => l1.length + l2.length

def Holds (l : List (Interval Point)) (p : Point) : Prop := ∃ i ∈ l, i.1 ≤ p ∧ p ≤ i.2

def Above (c : Point) (l : List (Interval Point)) : Prop := ∀ i ∈ l, c < i.1

def Ascending : List (Interval Point) → Prop
  | [] => True
  | (a, b) :: r => a ≤ b ∧ Above a r ∧ Ascending r

section Holds

variable {a b c p q x y : Point} {i : Interval Point} {l l1 l2 r : List (Interval Point)}

theorem above_cons : Above c (i :: l) ↔ c < i.1 ∧ Above c l := List.forall_mem_cons

@[simp] theorem holds_nil : ¬Holds ([] : List (Interval Point)) p := by
  simp [Holds]

@[simp] theorem holds_cons : Holds ((a, b) :: r) p ↔ a ≤ p ∧ p ≤ b ∨ Holds r p := by
  simp [Holds]

@[simp] theorem holds_append : Holds (l1 ++ l2) p ↔ Holds l1 p ∨ Holds l2 p := by
  simp [Holds, or_and_right, exists_or]

@[simp] theorem holds_reverse : Holds l.reverse p ↔ Holds l p := by
  simp [Holds]

theorem holds_consInterval : Holds (cons a b l) p ↔ a ≤ p ∧ p ≤ b ∨ Holds l p := by
  unfold cons
  split
  · rename_i empty
    have less := compare_gt_iff_gt.mp empty
    constructor
    · exact Or.inr
    · intro held
      apply held.resolve_left
      intro within
      exact absurd (within.1.trans within.2) (not_le.mpr less)
  · exact holds_cons

theorem Beyond.holds (beyond : Beyond c l) (held : Holds l p) : succ c < p := by
  obtain ⟨i, mem, le, -⟩ := held
  exact (beyond i mem).trans_le le

theorem Normal.apart (normal : Normal ((a, b) :: r)) (held : Holds r p) : succ b < p :=
  normal.2.1.holds held

theorem Normal.first_le (normal : Normal ((a, b) :: r)) (held : Holds ((a, b) :: r) p) : a ≤ p := by
  cases holds_cons.mp held with
  | inl within => exact within.1
  | inr later => exact normal.1.trans ((le_succ b).trans (normal.apart later).le)

theorem Normal.first (normal : Normal ((a, b) :: r)) : Holds ((a, b) :: r) a := by
  simp [normal.1]

theorem Normal.gap (normal : Normal ((a, b) :: r)) (below : b < ⊤) :
    ¬Holds ((a, b) :: r) (succ b) := by
  rw [holds_cons]
  intro held
  cases held with
  | inl within => exact absurd within.2 (not_le.mpr (lt_succ_iff_ne_top.mpr below.ne))
  | inr later => exact absurd (normal.apart later) (lt_irrefl _)

theorem Normal.ascending (normal : Normal l) : Ascending l := by
  induction l with
  | nil => trivial
  | cons i r ih =>
    refine ⟨normal.1, ?_, ih normal.2.2⟩
    intro i mem
    exact normal.1.trans_lt (normal.2.1.lt mem)

theorem member_iff (ascending : Ascending l) : member l p = true ↔ Holds l p := by
  induction l with
  | nil => simp [member]
  | cons i r ih =>
    obtain ⟨a, b⟩ := i
    have later : Holds r p → a < p := by
      intro held
      obtain ⟨i, mem, le, -⟩ := held
      exact (ascending.2.1 i mem).trans_le le
    rw [member, holds_cons]
    split
    · rename_i equal
      have equal := compare_eq_iff_eq.mp equal
      simp [← equal, ascending.1]
    · rename_i more
      have less := compare_gt_iff_gt.mp more
      simp only [Bool.false_eq_true, false_iff, not_or, not_and]
      constructor
      · intro le
        exact absurd le (not_le.mpr less)
      · intro held
        exact absurd (later held) less.asymm
    · rename_i less
      have less := compare_lt_iff_lt.mp less
      split
      · rename_i more
        have more := compare_gt_iff_gt.mp more
        rw [ih ascending.2.2]
        simp [not_le.mpr more]
      · rename_i within
        have le : p ≤ b := not_lt.mp fun more => within (compare_gt_iff_gt.mpr more)
        simp [less.le, le]

theorem member_congr (ascending1 : Ascending l1) (ascending2 : Ascending l2) :
    member l1 p = member l2 p ↔ (Holds l1 p ↔ Holds l2 p) := by
  rw [Bool.eq_iff_iff, member_iff ascending1, member_iff ascending2]

end Holds

section Merge

variable {a b c p : Point} {l l1 l2 r : List (Interval Point)}

theorem above_union (above1 : Above c l1) (above2 : Above c l2) : Above c (union l1 l2) := by
  fun_induction union l1 l2 with
  | case1 => exact above2
  | case2 => exact above1
  | _ =>
    simp only [above_cons] at *
    grind

theorem ascending_union (ascending1 : Ascending l1) (ascending2 : Ascending l2) :
    Ascending (union l1 l2) := by
  fun_induction union l1 l2 with
  | case1 => exact ascending2
  | case2 => exact ascending1
  | _ =>
    simp only [compare_lt_iff_lt, compare_eq_iff_eq, compare_gt_iff_gt, Ascending] at *
    grind [above_union, Above]

theorem le_or_of_isSucc (touches : isSucc a b = true) : p ≤ a ∨ b ≤ p := by
  rw [← eq_of_isSucc touches]
  exact (le_or_gt p a).imp id succ_le_of_lt

theorem holds_union (ascending1 : Ascending l1) (ascending2 : Ascending l2) :
    Holds (union l1 l2) p ↔ Holds l1 p ∨ Holds l2 p := by
  fun_induction union l1 l2 with
  | case1 => simp
  | case2 => simp
  | _ =>
    simp only [compare_lt_iff_lt, compare_eq_iff_eq, compare_gt_iff_gt, Ascending,
      holds_cons] at *
    grind [le_or_of_isSucc, Above]

theorem holds_intersect (normal1 : Normal l1) (normal2 : Normal l2) :
    Holds (intersect l1 l2) p ↔ Holds l1 p ∧ Holds l2 p := by
  fun_induction intersect l1 l2 with
  | case1 => simp
  | case2 => simp
  | _ =>
    -- what is cut off an interval ends before the rest of the other set begins
    have apart1 := normal1.apart (p := p)
    have apart2 := normal2.apart (p := p)
    simp only [compare_lt_iff_lt, compare_eq_iff_eq, compare_gt_iff_gt, holds_cons,
      holds_consInterval] at *
    grind [le_succ, normal_cons, Normal, succ_le_of_lt]

end Merge

def EndsBelowTop (l : List (Interval Point)) : Prop := ∃ i ∈ l, i.2 ⋖ ⊤

section Complement

variable {a b c p start : Point} {l l1 l2 r : List (Interval Point)}

@[simp] theorem endsBelowTop_nil : ¬EndsBelowTop ([] : List (Interval Point)) := by
  simp [EndsBelowTop]

@[simp] theorem endsBelowTop_cons : EndsBelowTop ((a, b) :: r) ↔ b ⋖ ⊤ ∨ EndsBelowTop r := by
  simp [EndsBelowTop]

theorem EndsBelowTop.not_holds (ends : EndsBelowTop l) (normal : Normal l) : ¬Holds l ⊤ := by
  induction l with
  | nil => simp
  | cons i r ih =>
    obtain ⟨a, b⟩ := i
    rw [holds_cons]
    cases endsBelowTop_cons.mp ends with
    | inl before =>
      intro held
      cases held with
      | inl within => exact absurd within.2 (not_le.mpr before.lt)
      | inr later => exact absurd (normal.apart later) (not_lt.mpr before.succ_eq.ge)
    | inr later =>
      obtain ⟨i, mem, before⟩ := later
      have less : b < ⊤ := (normal.2.1.lt mem).trans_le le_top
      intro held
      cases held with
      | inl within => exact absurd within.2 (not_le.mpr less)
      | inr held => exact ih ⟨i, mem, before⟩ normal.2.2 held

theorem holds_gaps (normal : Normal ((a, b) :: r)) : Holds (gaps (succ b) r) p ↔
      b < p ∧ ¬Holds r p ∧ ¬(EndsBelowTop ((a, b) :: r) ∧ p = ⊤) := by
  induction r generalizing a b with
  | nil =>
    rw [gaps]
    split
    · rename_i less
      have below : ¬b ⋖ ⊤ := fun before => less.ne before.succ_eq
      have other : ¬IsMax b := not_isMax_of_lt ((le_succ b).trans_lt less)
      simp [below, succ_le_iff_of_not_isMax other]
    · rename_i last
      have top : succ b = ⊤ := not_lt_top_iff.mp last
      simp only [holds_nil, not_false_eq_true, true_and, endsBelowTop_cons, endsBelowTop_nil,
        or_false, false_iff]
      rintro ⟨less, kept⟩
      have before : b ⋖ ⊤ := top ▸ covBy_succ_of_not_isMax (not_isMax_of_lt less)
      exact kept ⟨before, top_le_iff.mp (top.ge.trans (succ_le_of_lt less))⟩
  | cons i r ih =>
    obtain ⟨a', b'⟩ := i
    have between : succ b < a' := normal.2.1.head
    have below : b < ⊤ := (le_succ b).trans_lt (between.trans_le le_top)
    have other : ¬b ⋖ ⊤ := fun before => not_top_lt (before.succ_eq ▸ between)
    have nonempty : a' ≤ b' := normal.2.2.1
    have apart := normal.2.2.apart (p := p)
    have least : ¬IsMin a' := not_isMin_of_lt between
    have front : b < p ↔ succ b ≤ p := (succ_le_iff_of_not_isMax (not_isMax_of_lt below)).symm
    have behind : p ≤ pred a' ↔ p < a' := le_pred_iff_of_not_isMin least
    rw [gaps, holds_cons, ih normal.2.2, holds_cons, endsBelowTop_cons (b := b),
      or_iff_right other, front, behind]
    have := le_succ b'
    grind

theorem holds_complement (normal : Normal l) :
    Holds (complement l) p ↔ ¬Holds l p ∧ ¬(EndsBelowTop l ∧ p = ⊤) := by
  cases l with
  | nil => simp [complement, universe']
  | cons i r =>
    obtain ⟨a, b⟩ := i
    have later := holds_gaps (p := p) normal
    have apart := normal.apart (p := p)
    have nonempty := normal.1
    have := le_succ b
    rw [complement]
    split
    · rename_i less
      have less := compare_lt_iff_lt.mp less
      have behind : p ≤ pred a ↔ p < a := le_pred_iff_of_not_isMin (not_isMin_of_lt less)
      rw [comp_eq, holds_append, later, holds_reverse, holds_cons, behind, holds_cons]
      simp only [bot_le, true_and, holds_nil, or_false]
      grind
    · rename_i other
      have first : a = ⊥ := not_bot_lt_iff.mp fun less => other (compare_lt_iff_lt.mpr less)
      rw [comp_eq, holds_append, later, holds_cons, first]
      simp only [List.reverse_nil, holds_nil, false_or, bot_le, true_and]
      grind

theorem holds_difference (normal1 : Normal l1) (normal2 : Normal l2) : Holds (difference l1 l2) p ↔
      Holds l1 p ∧ ¬Holds l2 p ∧ ¬(EndsBelowTop l2 ∧ p = ⊤) := by
  rw [difference, holds_intersect normal1 (normal_complement normal2), holds_complement normal2]

theorem complement_iff (normal : Normal l) :
    (∀ p, Holds (complement l) p ↔ ¬Holds l p) ↔ ¬EndsBelowTop l := by
  constructor
  · intro right ends
    exact ((holds_complement normal).mp ((right ⊤).mpr (ends.not_holds normal))).2 ⟨ends, rfl⟩
  · intro inside p
    simp [holds_complement normal, inside]

theorem difference_iff (normal1 : Normal l1) (normal2 : Normal l2) :
    (∀ p, Holds (difference l1 l2) p ↔ Holds l1 p ∧ ¬Holds l2 p) ↔
      (EndsBelowTop l2 → ¬Holds l1 ⊤) := by
  constructor
  · intro right ends held
    have kept := (right ⊤).mpr ⟨held, ends.not_holds normal2⟩
    exact ((holds_difference normal1 normal2).mp kept).2.2 ⟨ends, rfl⟩
  · intro without p
    rw [holds_difference normal1 normal2]
    constructor
    · intro kept
      exact ⟨kept.1, kept.2.1⟩
    · intro kept
      refine ⟨kept.1, kept.2, ?_⟩
      rintro ⟨ends, rfl⟩
      exact without ends kept.1

end Complement

section Compare

variable {a b p x y : Point} {l l1 l2 r : List (Interval Point)}

theorem isCovered_iff : isCovered a b x y = true ↔ x ≤ a ∧ b ≤ y := by
  unfold isCovered
  split
  · rename_i less
    simp [not_le.mpr (compare_lt_iff_lt.mp less)]
  · rename_i above
    have le : x ≤ a := not_lt.mp fun less => above (compare_lt_iff_lt.mpr less)
    split
    · rename_i less
      simp [not_le.mpr (compare_lt_iff_lt.mp less)]
    · rename_i below
      simp [le, not_lt.mp fun less => below (compare_lt_iff_lt.mpr less)]

theorem isSubset_iff (normal1 : Normal l1) (normal2 : Normal l2) :
    isSubset l1 l2 = true ↔ ∀ p, Holds l1 p → Holds l2 p := by
  fun_induction isSubset l1 l2 with
  | case1 => simp
  | case2 l1 nonempty =>
    obtain _ | ⟨⟨a, b⟩, r⟩ := l1
    · exact absurd rfl nonempty
    · simp only [Bool.false_eq_true, holds_nil, imp_false, false_iff, not_forall, not_not]
      exact ⟨a, normal1.first⟩
  | case3 a1 b1 r1 a2 b2 r2 covered ih =>
    have covered := isCovered_iff.mp covered
    rw [ih normal1.2.2 normal2]
    simp only [holds_cons]
    constructor
    · intro rest p held
      cases held with
      | inl within => exact .inl ⟨covered.1.trans within.1, within.2.trans covered.2⟩
      | inr later => exact rest p later
    · intro all p held
      exact all p (.inr held)
  | case4 a1 b1 r1 a2 b2 r2 uncovered before ih =>
    have less := compare_lt_iff_lt.mp before
    rw [ih normal1 normal2.2.2]
    refine forall_congr' fun p => ?_
    constructor
    · intro rest held
      exact holds_cons.mpr (.inr (rest held))
    · intro all held
      apply (holds_cons.mp (all held)).resolve_left
      intro within
      exact absurd (within.2.trans_lt less) (not_lt.mpr (normal1.first_le held))
  | case5 a1 b1 r1 a2 b2 r2 uncovered reaches =>
    have le : a1 ≤ b2 := not_lt.mp fun less => reaches (compare_lt_iff_lt.mpr less)
    rw [isCovered_iff] at uncovered
    simp only [Bool.false_eq_true, false_iff]
    intro all
    apply uncovered
    have first : a2 ≤ a1 := normal2.first_le (all a1 normal1.first)
    refine ⟨first, not_lt.mp fun less => ?_⟩
    -- the point behind the second interval is in the first
    apply normal2.gap (less.trans_le le_top)
    apply all
    exact holds_cons.mpr (.inl ⟨le.trans (le_succ b2), succ_le_of_lt less⟩)

theorem last_le_of_holds (normal2 : Normal ((a, y) :: l))
    (same : ∀ p, Holds ((a, b) :: r) p → Holds ((a, y) :: l) p) : b ≤ y := by
  apply not_lt.mp
  intro less
  apply normal2.gap (less.trans_le le_top)
  apply same
  exact holds_cons.mpr (.inl ⟨normal2.1.trans (le_succ y), succ_le_of_lt less⟩)

theorem normal_unique (normal1 : Normal l1) (normal2 : Normal l2)
    (same : ∀ p, Holds l1 p ↔ Holds l2 p) : l1 = l2 := by
  induction l1 generalizing l2 with
  | nil =>
    cases l2 with
    | nil => rfl
    | cons i r => exact absurd ((same i.1).mpr normal2.first) holds_nil
  | cons i r1 ih =>
    obtain ⟨a1, b1⟩ := i
    cases l2 with
    | nil => exact absurd ((same a1).mp normal1.first) holds_nil
    | cons j r2 =>
      obtain ⟨a2, b2⟩ := j
      have first : a1 = a2 := le_antisymm
        (normal1.first_le ((same a2).mpr normal2.first))
        (normal2.first_le ((same a1).mp normal1.first))
      subst first
      have last : b1 = b2 := le_antisymm
        (last_le_of_holds normal2 fun p => (same p).mp)
        (last_le_of_holds normal1 fun p => (same p).mpr)
      subst last
      congr 1
      refine ih normal1.2.2 normal2.2.2 fun p => ?_
      have apart1 := normal1.apart (p := p)
      have apart2 := normal2.apart (p := p)
      have := le_succ b1
      simp only [holds_cons] at same
      grind

theorem compareSets_eq : compareSets l1 l2 = .eq ↔ l1 = l2 := by
  fun_induction compareSets l1 l2 with
  | case1 => simp
  | case2 a1 b1 r1 a2 b2 r2 first second ih =>
    rw [ih, compare_eq_iff_eq.mp first, compare_eq_iff_eq.mp second]
    simp
  | case3 a1 b1 r1 a2 b2 r2 first other =>
    refine iff_of_false other ?_
    rintro ⟨⟩
    exact other (compare_eq_iff_eq.mpr rfl)
  | case4 a1 b1 r1 a2 b2 r2 other =>
    refine iff_of_false other ?_
    rintro ⟨⟩
    exact other (compare_eq_iff_eq.mpr rfl)
  | case5 l2 nonempty =>
    refine iff_of_false (by simp) ?_
    rintro rfl
    exact nonempty rfl
  | case6 l1 nonempty =>
    refine iff_of_false (by simp) ?_
    rintro rfl
    exact nonempty rfl

theorem compareSets_iff (normal1 : Normal l1) (normal2 : Normal l2) :
    compareSets l1 l2 = .eq ↔ ∀ p, Holds l1 p ↔ Holds l2 p := by
  rw [compareSets_eq]
  constructor
  · rintro rfl p
    rfl
  · exact normal_unique normal1 normal2

end Compare

end Mythryl.IntervalSet
