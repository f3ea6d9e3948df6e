import Mathlib.Computability.Language
import Mathlib.Order.CompletePartialOrder
import Mathlib.Tactic.Linarith
import Mathlib.Tactic.Ring

/-! # Repeating a language under an empty-turn cut-off -/

namespace Repetition

variable {α : Type}

def between (L : Language α) (m : Int) (bound : Option Int) : Language α :=
  {w | ∃ k : Nat, m ≤ k ∧ (∀ b ∈ bound, k ≤ b) ∧ w ∈ L ^ k}

def proper (L : Language α) : Language α := {w | w ∈ L ∧ w ≠ []}

def further (L : Language α) (m : Int) (bound : Option Int) (i : Int) : Language α :=
  {w | ∃ k : Nat, m ≤ i + k ∧ (k = 0 ∨ ∀ b ∈ bound, i + k ≤ b) ∧ w ∈ proper L ^ k}

def turns (L : Language α) (m : Int) (bound : Option Int) : Language α :=
  {w | (m ≤ 0 ∧ w = []) ∨ w ∈ L * further L m bound 1}

structure Harmless (L : Language α) (m : Int) (bound : Option Int) : Prop where
  bound_nonneg : ∀ b ∈ bound, 0 ≤ b
  only_empty : 0 ∈ bound → ∀ w ∈ L, w = []
  never_empty : 2 ≤ m → [] ∉ L

section Words

variable {L : Language α} {m i : Int} {bound : Option Int} {w : List α}

theorem mem_pow_zero : w ∈ L ^ 0 ↔ w = [] := by rw [pow_zero, Language.mem_one]

variable {k : Nat}

theorem mem_pow_succ : w ∈ L ^ (k + 1) ↔ ∃ u ∈ L, ∃ v ∈ L ^ k, u ++ v = w := by
  rw [pow_succ', Language.mem_mul]

theorem mem_pow_one : w ∈ L ^ 1 ↔ w ∈ L := by rw [pow_one]

theorem proper_le_pow (k : Nat) : proper L ^ k ≤ L ^ k := by
  apply pow_le_pow_left'
  intro u mem
  exact mem.1

theorem exists_proper_pow (mem : w ∈ L ^ k) : ∃ j ≤ k, w ∈ proper L ^ j ∧ (j < k → [] ∈ L) := by
  induction k generalizing w with
  | zero => exact ⟨0, Nat.le_refl 0, mem_pow_zero.mpr (mem_pow_zero.mp mem), nofun⟩
  | succ k ih =>
    obtain ⟨u, mem_u, v, mem_v, eq⟩ := mem_pow_succ.mp mem
    obtain ⟨j, le, proper_v, empty⟩ := ih mem_v
    by_cases nonempty : u = []
    · rw [nonempty, List.nil_append] at eq
      rw [nonempty] at mem_u
      exact ⟨j, Nat.le_succ_of_le le, eq ▸ proper_v, fun _ => mem_u⟩
    · refine ⟨j + 1, Nat.succ_le_succ le, mem_pow_succ.mpr ⟨u, ⟨mem_u, nonempty⟩, v, proper_v, eq⟩,
        fun lt => empty (Nat.lt_of_succ_lt_succ lt)⟩

theorem mem_proper_mul_further : w ∈ proper L * further L m bound (i + 1) ↔
      ∃ k : Nat, m ≤ i + (k + 1 : Nat) ∧ (k = 0 ∨ ∀ b ∈ bound, i + (k + 1 : Nat) ≤ b) ∧
        w ∈ proper L ^ (k + 1) := by
  have shift (k : Nat) : i + 1 + (k : Int) = i + (k + 1 : Nat) := by push_cast; ring
  rw [Language.mem_mul]
  constructor
  · rintro ⟨u, mem_u, v, ⟨k, enough, allowed, mem_v⟩, eq⟩
    rw [shift] at enough
    simp only [shift] at allowed
    exact ⟨k, enough, allowed, mem_pow_succ.mpr ⟨u, mem_u, v, mem_v, eq⟩⟩
  · rintro ⟨k, enough, allowed, mem⟩
    obtain ⟨u, mem_u, v, mem_v, eq⟩ := mem_pow_succ.mp mem
    refine ⟨u, mem_u, v, ⟨k, ?_, ?_, mem_v⟩, eq⟩
    · rw [shift]
      exact enough
    · simp only [shift]
      exact allowed

theorem further_needed (ordered : ∀ b ∈ bound, m ≤ b) (few : i < m) :
    further L m bound i = proper L * further L m bound (i + 1) := by
  ext w
  rw [mem_proper_mul_further]
  constructor
  · rintro ⟨k, enough, allowed, mem⟩
    cases k with
    | zero => exact absurd few (not_lt.mpr (by simpa using enough))
    | succ k => exact ⟨k, enough, .inr (allowed.resolve_left (Nat.succ_ne_zero k)), mem⟩
  · rintro ⟨k, enough, allowed, mem⟩
    refine ⟨k + 1, enough, .inr ?_, mem⟩
    intro b at_most
    cases allowed with
    | inl last =>
      have := ordered b at_most
      rw [last]
      push_cast
      linarith [Int.add_one_le_iff.mpr few]
    | inr allowed => exact allowed b at_most

theorem further_open (enough : m ≤ i) (more : ∀ b ∈ bound, i < b) :
    further L m bound i = 1 + proper L * further L m bound (i + 1) := by
  ext w
  rw [Language.mem_add, Language.mem_one, mem_proper_mul_further]
  constructor
  · rintro ⟨k, fulfilled, allowed, mem⟩
    cases k with
    | zero => exact .inl (mem_pow_zero.mp mem)
    | succ k =>
      exact .inr ⟨k, fulfilled, .inr (allowed.resolve_left (Nat.succ_ne_zero k)), mem⟩
  · rintro (empty | ⟨k, fulfilled, allowed, mem⟩)
    · exact ⟨0, by simpa using enough, .inl rfl, mem_pow_zero.mpr empty⟩
    · refine ⟨k + 1, fulfilled, .inr ?_, mem⟩
      intro b at_most
      cases allowed with
      | inl last =>
        rw [last]
        exact Int.add_one_le_iff.mpr (more b at_most)
      | inr allowed => exact allowed b at_most

theorem further_done (enough : m ≤ i) (last : ¬∀ b ∈ bound, i < b) : further L m bound i = 1 := by
  ext w
  rw [Language.mem_one]
  constructor
  · rintro ⟨k, _, allowed, mem⟩
    cases allowed with
    | inl none => exact mem_pow_zero.mp (none ▸ mem)
    | inr allowed =>
      cases k with
      | zero => exact mem_pow_zero.mp mem
      | succ k =>
        refine (last fun b at_most => ?_).elim
        have := allowed b at_most
        push_cast at this
        linarith
  · intro empty
    exact ⟨0, by simpa using enough, .inl rfl, mem_pow_zero.mpr empty⟩

theorem turns_skipping (skip : m ≤ 0) : turns L m bound = L * further L m bound 1 + 1 := by
  ext w
  rw [Language.mem_add, Language.mem_one]
  constructor
  · rintro (none | some)
    · exact .inr none.2
    · exact .inl some
  · rintro (some | none)
    · exact .inr some
    · exact .inl ⟨skip, none⟩

theorem turns_needed (needed : ¬m ≤ 0) : turns L m bound = L * further L m bound 1 := by
  ext w
  constructor
  · rintro (none | some)
    · exact (needed none.1).elim
    · exact some
  · exact .inr

theorem turns_le_between (ordered : ∀ b ∈ bound, m ≤ b) (harmless : Harmless L m bound) :
    turns L m bound ≤ between L m bound := by
  intro w mem
  cases mem with
  | inl none => exact ⟨0, none.1, harmless.bound_nonneg, mem_pow_zero.mpr none.2⟩
  | inr some =>
    obtain ⟨u, mem_u, v, ⟨k, enough, allowed, mem_v⟩, eq⟩ := Language.mem_mul.mp some
    by_cases unasked : 0 ∈ bound ∧ k = 0
    · -- a turn is made although none is allowed, and takes nothing
      obtain ⟨zero, none⟩ := unasked
      rw [none] at mem_v
      rw [harmless.only_empty zero u mem_u, mem_pow_zero.mp mem_v] at eq
      exact ⟨0, ordered 0 zero, harmless.bound_nonneg, mem_pow_zero.mpr eq.symm⟩
    · refine ⟨k + 1, by push_cast; linarith, ?_,
        mem_pow_succ.mpr ⟨u, mem_u, v, proper_le_pow k mem_v, eq⟩⟩
      intro b at_most
      cases allowed with
      | inl none =>
        have nonneg := harmless.bound_nonneg b at_most
        have nonzero : b ≠ 0 := fun zero => unasked ⟨zero ▸ at_most, none⟩
        have positive : 0 < b := lt_of_le_of_ne nonneg nonzero.symm
        rw [none]
        simpa using Int.add_one_le_iff.mpr positive
      | inr allowed =>
        rw [add_comm]
        exact allowed b at_most

theorem between_le_turns (harmless : Harmless L m bound) : between L m bound ≤ turns L m bound := by
  rintro w ⟨k, enough, allowed, mem⟩
  obtain ⟨j, le, proper_mem, empty⟩ := exists_proper_pow mem
  have few (dropped : j < k) : m ≤ 1 := by
    by_contra more
    exact harmless.never_empty (by linarith) (empty dropped)
  cases j with
  | zero =>
    have nothing : w = [] := mem_pow_zero.mp proper_mem
    by_cases skipped : m ≤ 0
    · exact .inl ⟨skipped, nothing⟩
    · -- the first turn may be empty
      have dropped : 0 < k := by
        cases k with
        | zero => exact (skipped enough).elim
        | succ k => exact Nat.succ_pos k
      refine .inr (Language.mem_mul.mpr ⟨[], empty dropped, w, ⟨0, ?_, .inl rfl, proper_mem⟩, rfl⟩)
      simpa using few dropped
  | succ j =>
    obtain ⟨u, mem_u, v, mem_v, eq⟩ := mem_pow_succ.mp proper_mem
    refine .inr (Language.mem_mul.mpr ⟨u, mem_u.1, v, ⟨j, ?_, .inr ?_, mem_v⟩, eq⟩)
    · cases lt_or_eq_of_le le with
      | inl dropped => linarith [few dropped]
      | inr all =>
        push_cast at enough
        linarith
    · intro b at_most
      linarith [allowed b at_most]

theorem turns_eq_between (ordered : ∀ b ∈ bound, m ≤ b) (harmless : Harmless L m bound) :
    turns L m bound = between L m bound :=
  le_antisymm (turns_le_between ordered harmless) (between_le_turns harmless)

/-! Where one of the conditions fails, a text tells the two apart. -/

theorem mem_kstar_iff_pow : w ∈ KStar.kstar L ↔ ∃ k : Nat, w ∈ L ^ k := by
  rw [Language.kstar_eq_iSup_pow]
  exact Set.mem_iUnion

theorem between_star : between L 0 none = KStar.kstar L := by
  ext w
  rw [mem_kstar_iff_pow]
  constructor
  · rintro ⟨k, _, _, mem⟩
    exact ⟨k, mem⟩
  · rintro ⟨k, mem⟩
    exact ⟨k, Int.natCast_nonneg k, fun b at_most => (Option.not_mem_none b at_most).elim, mem⟩

theorem between_plus : between L 1 none = L * KStar.kstar L := by
  ext w
  rw [Language.mem_mul]
  constructor
  · rintro ⟨k, enough, _, mem⟩
    cases k with
    | zero => cases enough
    | succ k =>
      obtain ⟨u, mem_u, v, mem_v, eq⟩ := mem_pow_succ.mp mem
      exact ⟨u, mem_u, v, mem_kstar_iff_pow.mpr ⟨k, mem_v⟩, eq⟩
  · rintro ⟨u, mem_u, v, mem_v, eq⟩
    obtain ⟨k, mem_v⟩ := mem_kstar_iff_pow.mp mem_v
    refine ⟨k + 1, ?_, fun b at_most => (Option.not_mem_none b at_most).elim,
      mem_pow_succ.mpr ⟨u, mem_u, v, mem_v, eq⟩⟩
    push_cast
    linarith [Int.natCast_nonneg k]

theorem between_option : between L 0 (some 1) = 1 + L := by
  ext w
  rw [Language.mem_add, Language.mem_one]
  constructor
  · rintro ⟨k, _, allowed, mem⟩
    have atMostOne : k ≤ 1 := by exact_mod_cast allowed 1 rfl
    cases Nat.le_one_iff_eq_zero_or_eq_one.mp atMostOne with
    | inl zero => exact .inl (mem_pow_zero.mp (zero ▸ mem))
    | inr one => exact .inr (mem_pow_one.mp (one ▸ mem))
  · rintro (empty | mem)
    · refine ⟨0, le_rfl, ?_, mem_pow_zero.mpr empty⟩
      rintro b ⟨⟩
      exact zero_le_one
    · refine ⟨1, Int.natCast_nonneg 1, ?_, mem_pow_one.mpr mem⟩
      rintro b ⟨⟩
      exact le_rfl

theorem harmless_star : Harmless L 0 none :=
  ⟨fun b at_most => (Option.not_mem_none b at_most).elim,
    fun at_most => (Option.not_mem_none 0 at_most).elim, fun two => by linarith⟩

theorem harmless_plus : Harmless L 1 none :=
  ⟨fun b at_most => (Option.not_mem_none b at_most).elim,
    fun at_most => (Option.not_mem_none 0 at_most).elim, fun two => by linarith⟩

theorem harmless_option : Harmless L 0 (some 1) := by
  refine ⟨?_, ?_, fun two => by linarith⟩
  · rintro b ⟨⟩
    exact zero_le_one
  · intro zero
    cases zero

end Words

def Cuts (L : Language α) (K : List α → List α → Prop) (text : List α) : Prop :=
  ∃ u v, text = u ++ v ∧ u ∈ L ∧ K u v

section Cuts

variable {L L' : Language α} {K : List α → List α → Prop} {text : List α}

theorem cuts_one : Cuts 1 K text ↔ K [] text := by
  constructor
  · rintro ⟨u, v, eq, mem, holds⟩
    subst mem
    rwa [eq]
  · exact fun holds => ⟨[], text, rfl, Language.mem_one [] |>.mpr rfl, holds⟩

theorem cuts_add : Cuts (L + L') K text ↔ Cuts L K text ∨ Cuts L' K text := by
  constructor
  · rintro ⟨u, v, eq, mem | mem, holds⟩
    · exact .inl ⟨u, v, eq, mem, holds⟩
    · exact .inr ⟨u, v, eq, mem, holds⟩
  · rintro (⟨u, v, eq, mem, holds⟩ | ⟨u, v, eq, mem, holds⟩)
    · exact ⟨u, v, eq, .inl mem, holds⟩
    · exact ⟨u, v, eq, .inr mem, holds⟩

theorem cuts_mul :
    Cuts (L * L') K text ↔ Cuts L (fun u v => Cuts L' (fun u' v' => K (u ++ u') v') v) text := by
  constructor
  · rintro ⟨w, v, eq, mem, holds⟩
    obtain ⟨u, mem_u, u', mem_u', rfl⟩ := Language.mem_mul.mp mem
    exact ⟨u, u' ++ v, by rw [eq, List.append_assoc], mem_u, u', v, rfl, mem_u', holds⟩
  · rintro ⟨u, v, eq, mem_u, u', v', eq', mem_u', holds⟩
    exact ⟨u ++ u', v', by rw [eq, eq', List.append_assoc],
      Language.mem_mul.mpr ⟨u, mem_u, u', mem_u', rfl⟩, holds⟩

theorem cuts_proper :
    Cuts (proper L) K text ↔ Cuts L (fun u v => u ≠ [] ∧ K u v) text := by
  constructor
  · rintro ⟨u, v, eq, mem, holds⟩
    exact ⟨u, v, eq, mem.1, mem.2, holds⟩
  · rintro ⟨u, v, eq, mem, nonempty, holds⟩
    exact ⟨u, v, eq, ⟨mem, nonempty⟩, holds⟩

end Cuts

end Repetition
