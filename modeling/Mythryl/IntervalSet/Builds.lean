import Mythryl.IntervalSet.Cuts
import Mathlib.Data.Fintype.EquivFin

/-! # All sets that can be built -/

namespace Mythryl.IntervalSet
open Order

variable {Point : Type} [IntervalDomain Point]

inductive Build (Point : Type)
  | empty
  | universe'
  | singleton (x : Point)
  | interval (a b : Point)
  | add (s : Build Point) (a : Point)
  | addInt (s : Build Point) (a b : Point)
  | union (s1 s2 : Build Point)
  | intersect (s1 s2 : Build Point)
  | complement (s : Build Point)
  | difference (s1 s2 : Build Point)
  | filter (prior : Point → Bool) (s : Build Point)

def Yields : Build Point → List (Interval Point) → Prop
  | .empty, l => l = []
  | .universe', l => l = IntervalSet.universe'
  | .singleton x, l => l = IntervalSet.singleton x
  | .interval a b, l => IntervalSet.interval a b = .ok l
  | .add s a, l => ∃ l', Yields s l' ∧ l = IntervalSet.add a l'
  | .addInt s a b, l => ∃ l', Yields s l' ∧ IntervalSet.addInt l' a b = .ok l
  | .union s1 s2, l => ∃ l1 l2, Yields s1 l1 ∧ Yields s2 l2 ∧ l = IntervalSet.union l1 l2
  | .intersect s1 s2, l => ∃ l1 l2, Yields s1 l1 ∧ Yields s2 l2 ∧ l = IntervalSet.intersect l1 l2
  | .complement s, l => ∃ l', Yields s l' ∧ l = IntervalSet.complement l'
  | .difference s1 s2, l =>
      ∃ l1 l2, Yields s1 l1 ∧ Yields s2 l2 ∧ l = IntervalSet.difference l1 l2
  | .filter prior s, l => ∃ l', Yields s l' ∧ ∃ fuel, IntervalSet.filter prior fuel l' = .ok l

def steps : Build Point → List (Build Point)
  | .add s a => .add s a :: steps s
  | .addInt s a b => .addInt s a b :: steps s
  | .union s1 s2 => .union s1 s2 :: (steps s1 ++ steps s2)
  | .intersect s1 s2 => .intersect s1 s2 :: (steps s1 ++ steps s2)
  | .complement s => .complement s :: steps s
  | .difference s1 s2 => .difference s1 s2 :: (steps s1 ++ steps s2)
  | .filter prior s => .filter prior s :: steps s
  | leaf => [leaf]

/-- A point or an interval is not added right behind an interval of the set so that it reaches the
next one, and no interval of the first set of a union ends in one of the second that it has reached
into from below. -/
def StepOk : Build Point → Prop
  | .add s a => ∀ l, Yields s l → Clear a a l
  | .addInt s a b => a ≤ b → ∀ l, Yields s l → Clear a b l
  | .union s1 s2 => ∀ l1 l2, Yields s1 l1 → Yields s2 l2 → NoneCut l1 l2
  | _ => True

section Build

variable {s s1 s2 : Build Point} {e : Build Point} {a b : Point}
  {l l' : List (Interval Point)}

theorem normal_interval (run : interval a b = .ok l) : Normal l := by
  unfold interval at run
  split at run
  · cases run
  · rename_i ordered
    cases run
    exact ⟨not_lt.mp fun less => ordered (compare_gt_iff_gt.mpr less), beyond_nil, trivial⟩

theorem addInt_ok : addInt l a b = .ok l' ↔ a ≤ b ∧ l' = addIntIns a b l := by
  unfold addInt
  split
  · rename_i more
    simp [not_le.mpr (compare_gt_iff_gt.mp more), throw, throwThe, MonadExceptOf.throw]
  · rename_i ordered
    have le : a ≤ b := not_lt.mp fun less => ordered (compare_gt_iff_gt.mpr less)
    simp [le, pure, Except.pure, eq_comm]

omit [IntervalDomain Point] in
theorem self_mem_steps (e : Build Point) : e ∈ steps e := by
  cases e <;> exact List.mem_cons_self

def NormalAlong (e : Build Point) : Prop := ∀ e' ∈ steps e, ∀ l, Yields e' l → Normal l

theorem NormalAlong.self (normal : NormalAlong e) : ∀ l, Yields e l → Normal l :=
  normal e (self_mem_steps e)

theorem along_leaf (leaf : steps e = [e]) (normal : ∀ l, Yields e l → Normal l) (ok : StepOk e) :
    NormalAlong e ↔ ∀ e' ∈ steps e, StepOk e' := by
  unfold NormalAlong
  rw [leaf, List.forall_mem_singleton, List.forall_mem_singleton]
  exact iff_of_true normal ok

theorem along_unary (ih : NormalAlong s ↔ ∀ e' ∈ steps s, StepOk e')
    (before : steps e = e :: steps s)
    (step : (∀ l, Yields s l → Normal l) → ((∀ l, Yields e l → Normal l) ↔ StepOk e)) :
    NormalAlong e ↔ ∀ e' ∈ steps e, StepOk e' := by
  unfold NormalAlong at ih ⊢
  rw [before, List.forall_mem_cons, List.forall_mem_cons, ih]
  refine and_congr_left fun ok => step ?_
  exact NormalAlong.self (ih.mpr ok)

theorem along_binary (ih1 : NormalAlong s1 ↔ ∀ e' ∈ steps s1, StepOk e')
    (ih2 : NormalAlong s2 ↔ ∀ e' ∈ steps s2, StepOk e')
    (before : steps e = e :: (steps s1 ++ steps s2))
    (step : (∀ l, Yields s1 l → Normal l) → (∀ l, Yields s2 l → Normal l) →
      ((∀ l, Yields e l → Normal l) ↔ StepOk e)) : NormalAlong e ↔ ∀ e' ∈ steps e, StepOk e' := by
  unfold NormalAlong at ih1 ih2 ⊢
  rw [before, List.forall_mem_cons, List.forall_mem_cons, List.forall_mem_append,
    List.forall_mem_append, ih1, ih2]
  refine and_congr_left fun ok => step ?_ ?_
  · exact NormalAlong.self (ih1.mpr ok.1)
  · exact NormalAlong.self (ih2.mpr ok.2)

/-- The sets built by a run are all in normal form just when every step of it keeps the form, and
of the steps only additions and unions can break it. -/
theorem normal_iff (e : Build Point) : NormalAlong e ↔ ∀ e' ∈ steps e, StepOk e' := by
  induction e with
  | empty =>
    refine along_leaf rfl ?_ trivial
    rintro l rfl
    trivial
  | universe' =>
    refine along_leaf rfl ?_ trivial
    rintro l rfl
    exact ⟨bot_le, beyond_nil, trivial⟩
  | singleton x =>
    refine along_leaf rfl ?_ trivial
    rintro l rfl
    exact ⟨le_rfl, beyond_nil, trivial⟩
  | interval a b => exact along_leaf rfl (fun l run => normal_interval run) trivial
  | add s a ih =>
    refine along_unary ih rfl fun normal => ?_
    constructor
    · intro normal' l built
      exact (normal_add_iff (normal l built)).mp (normal' _ ⟨l, built, rfl⟩)
    · rintro ok l ⟨l', built, rfl⟩
      exact (normal_add_iff (normal l' built)).mpr (ok l' built)
  | addInt s a b ih =>
    refine along_unary ih rfl fun normal => ?_
    constructor
    · intro normal' le l built
      exact (normal_addIntIns_iff (normal l built) le).mp
        (normal' _ ⟨l, built, addInt_ok.mpr ⟨le, rfl⟩⟩)
    · rintro ok l ⟨l', built, run⟩
      obtain ⟨le, rfl⟩ := addInt_ok.mp run
      exact (normal_addIntIns_iff (normal l' built) le).mpr (ok le l' built)
  | union s1 s2 ih1 ih2 =>
    refine along_binary ih1 ih2 rfl fun normal1 normal2 => ?_
    constructor
    · intro normal' l1 l2 built1 built2
      exact (normal_union_iff (normal1 l1 built1) (normal2 l2 built2)).mp
        (normal' _ ⟨l1, l2, built1, built2, rfl⟩)
    · rintro ok l ⟨l1, l2, built1, built2, rfl⟩
      exact (normal_union_iff (normal1 l1 built1) (normal2 l2 built2)).mpr
        (ok l1 l2 built1 built2)
  | intersect s1 s2 ih1 ih2 =>
    refine along_binary ih1 ih2 rfl fun normal1 normal2 => iff_of_true ?_ trivial
    rintro l ⟨l1, l2, built1, built2, rfl⟩
    exact (meets_intersect (normal1 l1 built1) (normal2 l2 built2)).1
  | complement s ih =>
    refine along_unary ih rfl fun normal => iff_of_true ?_ trivial
    rintro l ⟨l', built, rfl⟩
    exact normal_complement (normal l' built)
  | difference s1 s2 ih1 ih2 =>
    refine along_binary ih1 ih2 rfl fun normal1 normal2 => iff_of_true ?_ trivial
    rintro l ⟨l1, l2, built1, built2, rfl⟩
    exact (meets_intersect (normal1 l1 built1) (normal_complement (normal2 l2 built2))).1
  | filter prior s ih =>
    refine along_unary ih rfl fun normal => iff_of_true ?_ trivial
    rintro l ⟨l', built, fuel, run⟩
    exact normal_filter (normal l' built) run

end Build

instance (n : Nat) : IntervalDomain (Fin (n + 1)) where

theorem addInt_overlaps : ¬∀ (e : Build (Fin 10)) l, Yields e l → Normal l := by
  intro normal
  have built : Yields (.addInt (.addInt (.interval 1 2) 5 6) 3 5)
      ([(1, 5), (5, 6)] : List (Interval (Fin 10))) :=
    ⟨[(1, 2), (5, 6)], ⟨[(1, 2)], rfl, rfl⟩, rfl⟩
  have beyond := (normal _ _ built).2.1 (5, 6) List.mem_cons_self
  exact absurd beyond (by decide)

/-! # When a filter comes to an end -/

def Lands (prior : Point → Bool) (last : Point) : Prop :=
  last = ⊤ ∨ prior (pred last) = prior last

def Scannable (prior : Point → Bool) (i : Interval Point) : Prop :=
  i.2 = ⊤ ∨ (i.1 = i.2 ∧ prior i.2 = false) ∨ (i.1 < i.2 ∧ prior (pred i.2) = prior i.2)

section Scan

variable {prior : Point → Bool} {a b start item last p : Point}
  {k l l' r s : List (Interval Point)} {fuel : Nat}

theorem scannable_of_lt (less : a < b) : Scannable prior (a, b) ↔ Lands prior b := by
  simp [Scannable, Lands, less, less.ne]

theorem scannable_self : Scannable prior (a, a) ↔ a = ⊤ ∨ prior a = false := by
  simp [Scannable]

theorem scannable_succ (less : a < b) (fails : prior a = false) :
    Scannable prior (succ a, b) ↔ Scannable prior (a, b) := by
  rw [scannable_of_lt less]
  rcases (succ_le_of_lt less).lt_or_eq with between | equal
  · exact scannable_of_lt between
  · rw [← equal, scannable_self, Lands, pred_succ_of_not_isMax (not_isMax_of_lt less), fails,
      eq_comm (a := false)]

def Finds (prior : Point → Bool) (a b : Point) (k : List (Interval Point)) : Prop :=
  ∀ p, Holds k p ↔ a ≤ p ∧ p ≤ b ∧ prior p = true

def FindsBehind (prior : Point → Bool) (start item b : Point) (k : List (Interval Point)) : Prop :=
  ∀ p, Holds k p ↔ start ≤ p ∧ p ≤ item ∨ item < p ∧ p ≤ b ∧ prior p = true

theorem ended (fuel : Nat) :
    (∀ start item last l l', start ≤ item → item < last → prior item = true →
      lp prior fuel start item last l = .ok l' →
        Lands prior last ∧ ∃ k, l' = k ++ l ∧ FindsBehind prior start item last k) ∧
    ∀ next last l l', next ≤ last → scan prior fuel next last l = .ok l' →
      Scannable prior (next, last) ∧ ∃ k, l' = k ++ l ∧ Finds prior next last k := by
  induction fuel with
  | zero =>
    constructor
    · intro start item last l l' _ _ _ run
      cases run
    · intro next last l l' _ run
      cases run
  | succ fuel ih =>
    constructor
    · intro start item last l l' le less passes run
      have up : item < succ item := lt_succ_of_not_isMax (not_isMax_of_lt less)
      have back : pred (succ item) = item := pred_succ_of_not_isMax (not_isMax_of_lt less)
      have front {p : Point} : item < p ↔ succ item ≤ p :=
        (succ_le_iff_of_not_isMax (not_isMax_of_lt less)).symm
      have more : succ item ≤ last := succ_le_of_lt less
      rw [lp] at run
      by_cases next : prior (succ item) = true
      · simp only [if_pos next] at run
        split at run
        · rename_i equal
          cases run
          cases compare_eq_iff_eq.mp equal
          refine ⟨.inr (by rw [back, passes, next]), [(start, succ item)], rfl, fun p => ?_⟩
          simp only [holds_cons, holds_nil, front]
          grind
        · rename_i other
          have less' : succ item < last :=
            lt_of_le_of_ne more fun equal => other (compare_eq_iff_eq.mpr equal)
          obtain ⟨lands, k, rfl, finds⟩ := ih.1 _ _ _ _ _ (le.trans up.le) less' next run
          refine ⟨lands, k, rfl, fun p => (finds p).trans ?_⟩
          grind
      · simp only [if_neg next] at run
        have fails : prior (succ item) = false := Bool.eq_false_of_not_eq_true next
        rcases more.lt_or_eq with less' | equal
        · obtain ⟨scannable, k, rfl, finds⟩ := ih.2 _ _ _ _ (succ_le_of_lt less') run
          have front' {p : Point} : succ item < p ↔ succ (succ item) ≤ p :=
            (succ_le_iff_of_not_isMax (not_isMax_of_lt less')).symm
          refine ⟨(scannable_of_lt less').mp ((scannable_succ less' fails).mp scannable),
            k ++ [(start, item)], by simp, fun p => ?_⟩
          rw [holds_append, finds p, holds_cons, front]
          simp only [holds_nil]
          grind
        · -- the point that does not pass is the last one
          subst equal
          by_cases top : succ item = ⊤
          · rw [top, succ_top] at run
            rw [top] at fails
            cases fuel with
            | zero => cases run
            | succ fuel =>
              rw [scan, if_neg (by simp [fails]), if_pos (compare_eq_iff_eq.mpr rfl)] at run
              cases run
              refine ⟨.inl top, [(start, item)], rfl, fun p => ?_⟩
              simp only [holds_cons, holds_nil, front, top]
              grind
          · rw [(past_unfinished (lt_top_iff_ne_top.mpr top) fuel).2 _ _
              (lt_succ_iff_ne_top.mpr top)] at run
            cases run
    · intro next last l l' le run
      rw [scan] at run
      by_cases passes : prior next = true
      · rw [if_pos passes] at run
        rcases le.lt_or_eq with less | equal
        · obtain ⟨lands, k, rfl, finds⟩ := ih.1 _ _ _ _ _ le_rfl less passes run
          refine ⟨(scannable_of_lt less).mpr lands, k, rfl, fun p => (finds p).trans ?_⟩
          grind
        · subst equal
          by_cases top : next = ⊤
          · subst top
            cases fuel with
            | zero => cases run
            | succ fuel =>
              rw [lp] at run
              simp only [succ_top, if_pos passes, if_pos (compare_eq_iff_eq.mpr rfl)] at run
              cases run
              refine ⟨.inl rfl, [(⊤, ⊤)], rfl, fun p => ?_⟩
              simp only [holds_cons, holds_nil]
              grind
          · rw [(past_unfinished (lt_top_iff_ne_top.mpr top) fuel).1 _ _ _ le_rfl] at run
            cases run
      · rw [if_neg passes] at run
        have fails : prior next = false := Bool.eq_false_of_not_eq_true passes
        split at run
        · rename_i equal
          cases run
          cases compare_eq_iff_eq.mp equal
          rw [scannable_self]
          refine ⟨.inr fails, [], rfl, fun p => ?_⟩
          simp only [holds_nil]
          grind
        · rename_i other
          have less : next < last :=
            lt_of_le_of_ne le fun equal => other (compare_eq_iff_eq.mpr equal)
          have front {p : Point} : next < p ↔ succ next ≤ p :=
            (succ_le_iff_of_not_isMax (not_isMax_of_lt less)).symm
          obtain ⟨scannable, k, rfl, finds⟩ := ih.2 _ _ _ _ (succ_le_of_lt less) run
          refine ⟨(scannable_succ less fails).mp scannable, k, rfl, fun p => ?_⟩
          rw [finds p, ← front]
          grind

theorem ends [Finite Point] (last a : Point) : (a < last → prior a = true → Lands prior last →
      ∃ least, ∀ fuel ≥ least, ∀ start l, ∃ l', lp prior fuel start a last l = .ok l') ∧
    (a ≤ last → Scannable prior (a, last) →
      ∃ least, ∀ fuel ≥ least, ∀ l, ∃ l', scan prior fuel a last l = .ok l') := by
  induction a using WellFoundedGT.induction with
  | ind a ih =>
    have follow : a < last → prior a = true → Lands prior last →
        ∃ least, ∀ fuel ≥ least, ∀ start l, ∃ l', lp prior fuel start a last l = .ok l' := by
      intro less passes lands
      have up : a < succ a := lt_succ_of_not_isMax (not_isMax_of_lt less)
      have more : succ a ≤ last := succ_le_of_lt less
      by_cases next : prior (succ a) = true
      · rcases more.lt_or_eq with less' | equal
        · obtain ⟨least, run⟩ := (ih _ up).1 less' next lands
          refine ⟨least + 1, fun fuel enough start l => ?_⟩
          obtain ⟨fuel, rfl⟩ := Nat.exists_eq_add_of_le' enough
          have other : ¬compare (succ a) last = .eq := fun equal =>
            less'.ne (compare_eq_iff_eq.mp equal)
          rw [← Nat.add_assoc, lp]
          simp only [if_pos next, if_neg other]
          exact run _ (Nat.le_add_left ..) start l
        · refine ⟨1, fun fuel enough start l => ?_⟩
          obtain ⟨fuel, rfl⟩ := Nat.exists_eq_add_of_le' enough
          rw [lp]
          simp only [if_pos next, if_pos (compare_eq_iff_eq.mpr equal)]
          exact ⟨_, rfl⟩
      · have fails : prior (succ a) = false := Bool.eq_false_of_not_eq_true next
        obtain ⟨least, run⟩ : ∃ least, ∀ fuel ≥ least, ∀ l, ∃ l',
            scan prior fuel (succ (succ a)) last l = .ok l' := by
          rcases more.lt_or_eq with less' | equal
          · have up' : a < succ (succ a) := up.trans_le (le_succ _)
            apply (ih _ up').2 (succ_le_of_lt less')
            exact (scannable_succ less' fails).mpr ((scannable_of_lt less').mpr lands)
          · -- the last point does not pass though the one before does
            have top : last = ⊤ := by
              apply lands.resolve_right
              rw [← equal, pred_succ_of_not_isMax (not_isMax_of_lt less), passes, fails]
              simp
            subst top
            rw [equal, succ_top]
            exact (ih ⊤ less).2 le_rfl (.inl rfl)
        refine ⟨least + 1, fun fuel enough start l => ?_⟩
        obtain ⟨fuel, rfl⟩ := Nat.exists_eq_add_of_le' enough
        rw [← Nat.add_assoc, lp]
        simp only [if_neg next]
        exact run _ (Nat.le_add_left ..) _
    refine ⟨follow, fun le scannable => ?_⟩
    by_cases passes : prior a = true
    · -- only the last point of all can pass as the only one
      obtain ⟨least, run⟩ : ∃ least, ∀ fuel ≥ least, ∀ start l, ∃ l',
          lp prior fuel start a last l = .ok l' := by
        rcases le.lt_or_eq with less | equal
        · exact follow less passes ((scannable_of_lt less).mp scannable)
        · subst equal
          have top : a = ⊤ := scannable.resolve_right (by simp [passes])
          subst top
          refine ⟨1, fun fuel enough start l => ?_⟩
          obtain ⟨fuel, rfl⟩ := Nat.exists_eq_add_of_le' enough
          rw [lp]
          simp only [succ_top, if_pos passes, if_pos (compare_eq_iff_eq.mpr rfl)]
          exact ⟨_, rfl⟩
      refine ⟨least + 1, fun fuel enough l => ?_⟩
      obtain ⟨fuel, rfl⟩ := Nat.exists_eq_add_of_le' enough
      rw [← Nat.add_assoc, scan, if_pos passes]
      exact run _ (Nat.le_add_left ..) a l
    · have fails : prior a = false := Bool.eq_false_of_not_eq_true passes
      rcases le.lt_or_eq with less | equal
      · have up : a < succ a := lt_succ_of_not_isMax (not_isMax_of_lt less)
        obtain ⟨least, run⟩ :=
          (ih _ up).2 (succ_le_of_lt less) ((scannable_succ less fails).mpr scannable)
        refine ⟨least + 1, fun fuel enough l => ?_⟩
        obtain ⟨fuel, rfl⟩ := Nat.exists_eq_add_of_le' enough
        have other : ¬compare a last = .eq := fun equal => less.ne (compare_eq_iff_eq.mp equal)
        rw [← Nat.add_assoc, scan, if_neg passes, if_neg other]
        exact run _ (Nat.le_add_left ..) l
      · refine ⟨1, fun fuel enough l => ?_⟩
        obtain ⟨fuel, rfl⟩ := Nat.exists_eq_add_of_le' enough
        rw [scan, if_neg passes, if_pos (compare_eq_iff_eq.mpr equal)]
        exact ⟨l, rfl⟩

theorem filter'_ended (normal : Normal r) (run : filter' prior fuel r l = .ok s) :
    (∀ i ∈ r, Scannable prior i) ∧ ∀ p, Holds s p ↔ Holds l p ∨ Holds r p ∧ prior p = true := by
  induction r generalizing l with
  | nil =>
    cases run
    simp
  | cons i r ih =>
    obtain ⟨a, b⟩ := i
    obtain ⟨l', scanned, run⟩ := bind_eq_ok.mp run
    obtain ⟨scannable, k, rfl, finds⟩ := (ended fuel).2 a b l l' normal.1 scanned
    obtain ⟨rest, holds⟩ := ih normal.2.2 run
    refine ⟨List.forall_mem_cons.mpr ⟨scannable, rest⟩, fun p => ?_⟩
    rw [holds p, holds_append, finds p, holds_cons]
    grind

theorem filter'_ends [Finite Point] (normal : Normal r) (scannable : ∀ i ∈ r, Scannable prior i) :
    ∃ least, ∀ fuel ≥ least, ∀ l, ∃ s, filter' prior fuel r l = .ok s := by
  induction r with
  | nil => exact ⟨0, fun fuel _ l => ⟨l.reverse, rfl⟩⟩
  | cons i r ih =>
    obtain ⟨a, b⟩ := i
    obtain ⟨first, rest⟩ := List.forall_mem_cons.mp scannable
    obtain ⟨least, scan⟩ := (ends b a).2 normal.1 first
    obtain ⟨least', filter⟩ := ih normal.2.2 rest
    refine ⟨max least least', fun fuel enough l => ?_⟩
    obtain ⟨l', scanned⟩ := scan fuel (le_of_max_le_left enough) l
    have scanned : filterInt prior fuel (a, b) l = .ok l' := scanned
    rw [filter', scanned]
    exact filter fuel (le_of_max_le_right enough) l'

theorem filter_iff [Finite Point] (normal : Normal l) : (∃ fuel s, filter prior fuel l = .ok s ∧
      ∀ p, Holds s p ↔ Holds l p ∧ prior p = true) ↔ ∀ i ∈ l, Scannable prior i := by
  constructor
  · rintro ⟨fuel, s, run, -⟩
    exact (filter'_ended normal run).1
  · intro scannable
    obtain ⟨least, run⟩ := filter'_ends normal scannable
    obtain ⟨s, run⟩ := run least le_rfl []
    refine ⟨least, s, run, fun p => ?_⟩
    simpa using (filter'_ended normal run).2 p

end Scan

structure PointSets (s t : List (Interval Point)) (prior : Point → Bool) : Prop where
  union : ∀ p, member (union s t) p = (member s p || member t p)
  intersect : ∀ p, member (intersect s t) p = (member s p && member t p)
  difference : ∀ p, member (difference s t) p = (member s p && !member t p)
  complement : ∀ p, member (complement s) p = !member s p
  filter : ∃ fuel l, filter prior fuel s = .ok l ∧ ∀ p, member l p = (member s p && prior p)
  isSubset : isSubset s t = true ↔ ∀ p, member s p = true → member t p = true
  compare : compareSets s t = .eq ↔ ∀ p, member s p = member t p

section PointSets

variable {s t : List (Interval Point)} {prior : Point → Bool}

theorem complement_right_iff (normal : Normal s) :
    (∀ p, member (complement s) p = !member s p) ↔ ¬EndsBelowTop s := by
  rw [← complement_iff normal]
  refine forall_congr' fun p => ?_
  rw [Bool.eq_iff_iff, member_iff (normal_complement normal).ascending, Bool.not_eq_true',
    ← Bool.not_eq_true, member_iff normal.ascending]

theorem difference_right_iff (normal1 : Normal s) (normal2 : Normal t) :
    (∀ p, member (difference s t) p = (member s p && !member t p)) ↔
      (EndsBelowTop t → member s ⊤ = false) := by
  have normal := (meets_intersect normal1 (normal_complement normal2)).1
  rw [← Bool.not_eq_true, member_iff normal1.ascending, ← difference_iff normal1 normal2]
  refine forall_congr' fun p => ?_
  rw [Bool.eq_iff_iff, difference, member_iff normal.ascending, Bool.and_eq_true,
    Bool.not_eq_true', ← Bool.not_eq_true, member_iff normal1.ascending,
    member_iff normal2.ascending]

theorem filter_right_iff [Finite Point] (normal : Normal s) :
    (∃ fuel l, filter prior fuel s = .ok l ∧ ∀ p, member l p = (member s p && prior p)) ↔
      ∀ i ∈ s, Scannable prior i := by
  rw [← filter_iff normal]
  refine exists_congr fun fuel => exists_congr fun l => and_congr_right fun run => ?_
  refine forall_congr' fun p => ?_
  rw [Bool.eq_iff_iff, member_iff (normal_filter normal run).ascending, Bool.and_eq_true,
    member_iff normal.ascending]

theorem pointSets_iff [Finite Point] (normal1 : Normal s) (normal2 : Normal t) :
    PointSets s t prior ↔ ¬EndsBelowTop s ∧ (EndsBelowTop t → member s ⊤ = false) ∧
        ∀ i ∈ s, Scannable prior i := by
  rw [← complement_right_iff normal1, ← difference_right_iff normal1 normal2,
    ← filter_right_iff normal1]
  constructor
  · intro right
    exact ⟨right.complement, right.difference, right.filter⟩
  · rintro ⟨complement, difference, filter⟩
    refine ⟨fun p => ?_, fun p => ?_, difference, complement, filter, ?_, ?_⟩
    · rw [Bool.eq_iff_iff, member_iff (ascending_union normal1.ascending normal2.ascending),
        holds_union normal1.ascending normal2.ascending, Bool.or_eq_true,
        member_iff normal1.ascending, member_iff normal2.ascending]
    · rw [Bool.eq_iff_iff, member_iff (meets_intersect normal1 normal2).1.ascending,
        holds_intersect normal1 normal2, Bool.and_eq_true, member_iff normal1.ascending,
        member_iff normal2.ascending]
    · rw [isSubset_iff normal1 normal2]
      simp only [member_iff normal1.ascending, member_iff normal2.ascending]
    · rw [compareSets_iff normal1 normal2]
      simp only [member_congr normal1.ascending normal2.ascending]

theorem pointSets_low :
    PointSets ([(0, 1), (3, 9)] : List (Interval (Fin 10))) [(2, 5)] (fun p => p ≤ 6) := by
  have normal1 : Normal ([(0, 1), (3, 9)] : List (Interval (Fin 10))) :=
    ⟨by decide, by simp [Beyond]; decide, by decide, beyond_nil, trivial⟩
  have normal2 : Normal ([(2, 5)] : List (Interval (Fin 10))) := ⟨by decide, beyond_nil, trivial⟩
  have notBelow {a : Fin 10} (other : succ a ≠ ⊤) : ¬a ⋖ ⊤ := fun before => other before.succ_eq
  apply (pointSets_iff normal1 normal2).mpr
  refine ⟨?_, ?_, ?_⟩
  · have last : ¬(9 : Fin 10) ⋖ ⊤ := fun before => absurd before.lt (by decide)
    simp [notBelow (a := 1) (by decide), last]
  · simp [notBelow (a := 5) (by decide)]
  · simp [Scannable]
    decide

theorem complement_empty : ¬∀ (s t : List (Interval (Fin 10))) (prior : Fin 10 → Bool),
    Normal s → Normal t → PointSets s t prior := by
  intro right
  have normal : Normal ([(0, 8)] : List (Interval (Fin 10))) := ⟨by decide, beyond_nil, trivial⟩
  have kept := (right [(0, 8)] [] (fun _ => true) normal trivial).complement 9
  exact absurd kept (by decide)

end PointSets

end Mythryl.IntervalSet
