import Mathlib.Data.Nat.Prime.Basic
import Mathlib.Data.Nat.Factors
import Mathlib.Tactic.Linarith
import Mathlib.Tactic.Ring
import Mythryl.Loop

/-! # Trial division -/

namespace TrialDivision
open Loop

variable {ε α : Type}

structure Arithmetic (ε α : Type) where
  lit : ℕ → α
  abs : α → Except ε α
  add : α → α → Except ε α
  mul : α → α → Except ε α
  div : α → α → Except ε α
  mod : α → α → Except ε α
  lt : α → α → Bool
  gt : α → α → Bool
  ge : α → α → Bool
  eq : α → α → Bool

inductive Test (α : Type)
  | start (p : α)
  | loop (p i : α)

structure Search (α : Type) where
  n : α
  p : α
  results : List α

namespace Arithmetic

variable (A : Arithmetic ε α)

def test : Test α → Except ε (Turn (Test α) Bool)
  | .start p => do
      let p ← A.abs p
      if A.lt p (A.lit 4) then return .done true
      else if A.eq (← A.mod p (A.lit 2)) (A.lit 0) then return .done false
      else return .next (.loop p (A.lit 3))
  | .loop p i => do
      if A.eq (← A.mod p i) (A.lit 0) then return .done false
      else if A.ge (← A.mul i i) p then return .done true
      else return .next (.loop p (← A.add i (A.lit 2)))

def search : Search α → Except ε (Turn (Search α) (List α))
  | ⟨n, p, results⟩ => do
      if A.gt (← A.mul p p) n then return .done (n :: results).reverse
      else if A.eq (← A.mod n p) (A.lit 0) then return .next ⟨← A.div n p, p, p :: results⟩
      else return .next ⟨n, ← A.add p (A.lit 1), results⟩

structure Exact (fits : ℕ → Prop) (den : α → ℕ → Prop) : Prop where
  down : ∀ {a b}, a ≤ b → fits b → fits a
  lit : ∀ {a}, a ≤ 4 → den (A.lit a) a
  add : ∀ {x y a b}, den x a → den y b → fits (a + b) → ∃ z, A.add x y = .ok z ∧ den z (a + b)
  mul : ∀ {x y a b}, den x a → den y b → fits (a * b) → ∃ z, A.mul x y = .ok z ∧ den z (a * b)
  div : ∀ {x y a b}, den x a → den y b → 0 < b → ∃ z, A.div x y = .ok z ∧ den z (a / b)
  mod : ∀ {x y a b}, den x a → den y b → 0 < b → ∃ z, A.mod x y = .ok z ∧ den z (a % b)
  lt : ∀ {x y a b}, den x a → den y b → A.lt x y = decide (a < b)
  gt : ∀ {x y a b}, den x a → den y b → A.gt x y = decide (a > b)
  ge : ∀ {x y a b}, den x a → den y b → A.ge x y = decide (a ≥ b)
  eq : ∀ {x y a b}, den x a → den y b → A.eq x y = decide (a = b)

end Arithmetic

section Test

variable {A : Arithmetic ε α} {fits : ℕ → Prop} {den : α → ℕ → Prop} {m : ℕ}

structure Tried (m i : ℕ) : Prop where
  odd : i % 2 = 1
  three : 3 ≤ i
  lt : i < m
  least : ∀ q, q.Prime → q ∣ m → i ≤ q
  needed : ∀ l, l % 2 = 1 → m ≤ l * l → i ≤ l

variable {i m : ℕ}

theorem Tried.prime (tried : Tried m i) (other : ¬i ∣ m) (enough : m ≤ i * i) : m.Prime := by
  have lt := tried.lt
  by_contra composite
  have factor := Nat.minFac_prime (show m ≠ 1 by have := tried.three; omega)
  have square : m.minFac ^ 2 ≤ m := Nat.minFac_sq_le_self (by omega) composite
  have le := tried.least m.minFac factor (Nat.minFac_dvd m)
  have ne : i ≠ m.minFac := by
    intro same
    rw [same] at other
    exact other (Nat.minFac_dvd m)
  have less : i * i < m.minFac * m.minFac := Nat.mul_self_lt_mul_self (by omega)
  rw [Nat.pow_two] at square
  omega

theorem Tried.not_prime (tried : Tried m i) (dvd : i ∣ m) : ¬m.Prime := by
  intro prime
  have three := tried.three
  have lt := tried.lt
  rcases prime.eq_one_or_self_of_dvd i dvd with one | same <;> omega

theorem Tried.next (tried : Tried m i) (odd : m % 2 = 1) (other : ¬i ∣ m) (less : i * i < m) :
    Tried m (i + 2) where
  odd := by
    have := tried.odd
    omega
  three := tried.three.trans (Nat.le_add_right i 2)
  lt := by
    have three := tried.three
    nlinarith
  least := by
    intro q prime dvd
    have le := tried.least q prime dvd
    have ne : i ≠ q := by
      intro same
      rw [same] at other
      exact other dvd
    have oddFactor : q % 2 = 1 := by
      obtain ⟨k, eq⟩ := dvd
      rw [eq, Nat.mul_mod] at odd
      by_contra even
      rw [Nat.mod_two_ne_one.mp even, Nat.zero_mul] at odd
      cases odd
    have oddNext := tried.odd
    omega
  needed := by
    intro l oddRoot enough
    have lt : i < l := Nat.mul_self_lt_mul_self_iff.mp (by omega)
    have oddNext := tried.odd
    omega

theorem tried_three (odd : m % 2 = 1) (four : 4 ≤ m) : Tried m 3 where
  odd := rfl
  three := le_rfl
  lt := four
  least := by
    intro q prime dvd
    have two := prime.two_le
    rcases Nat.lt_or_eq_of_le two with more | same
    · exact more
    · rw [← same] at dvd
      omega
  needed := by
    intro l oddRoot enough
    by_contra small
    have one : l = 1 := by omega
    rw [one] at enough
    omega

theorem Tried.square_fits (tried : Tried m i) (exact : A.Exact fits den) (here : fits m)
    (room : m.Prime → ∃ l, l % 2 = 1 ∧ m ≤ l * l ∧ fits (l * l)) : fits (i * i) := by
  by_cases prime : m.Prime
  · obtain ⟨l, odd, enough, large⟩ := room prime
    have le := tried.needed l odd enough
    exact exact.down (Nat.mul_self_le_mul_self le) large
  · have three := tried.three
    have lt := tried.lt
    have square := Nat.minFac_sq_le_self (show 0 < m by omega) prime
    have le := tried.least m.minFac (Nat.minFac_prime (by omega)) (Nat.minFac_dvd m)
    rw [Nat.pow_two] at square
    exact exact.down ((Nat.mul_self_le_mul_self le).trans square) here

theorem test_loop (exact : A.Exact fits den) {x : α} (hx : den x m) (here : fits m) (odd : m % 2 = 1)
    (room : m.Prime → ∃ l, l % 2 = 1 ∧ m ≤ l * l ∧ fits (l * l)) {y : α} (hy : den y i)
    (tried : Tried m i) : Ends A.test (.loop x y) (.ok (decide m.Prime)) := by
  have ends : ∃ result, Ends A.test (.loop x y) result ∧ result = .ok (decide m.Prime) := by
    apply ends_of_ranks (P := fun r s => ∃ y i, s = .loop x y ∧ den y i ∧ Tried m i ∧ r = m - i) _
      ⟨y, i, rfl, hy, tried, rfl⟩
    intro r s ⟨y, i, state, hy, tried, rank⟩
    obtain ⟨square, multiplied, hs⟩ := exact.mul hy hy (tried.square_fits exact here room)
    have three := tried.three
    obtain ⟨z, divided, hz⟩ := exact.mod hx hy (show 0 < i by omega)
    subst state rank
    have rest : A.eq z (A.lit 0) = decide (i ∣ m) := by
      rw [exact.eq hz (exact.lit (by decide))]
      exact decide_eq_decide.mpr Nat.dvd_iff_mod_eq_zero.symm
    have last : A.ge square x = decide (i * i ≥ m) := exact.ge hs hx
    by_cases dvd : i ∣ m
    · apply TurnsTo.done (r := false)
      · simp [Arithmetic.test, bind, Except.bind, pure, Except.pure, divided, rest, dvd]
      · simp [tried.not_prime dvd]
    · by_cases enough : m ≤ i * i
      · apply TurnsTo.done (r := true)
        · simp [Arithmetic.test, bind, Except.bind, pure, Except.pure, divided, rest, dvd, multiplied,
            last, enough]
        · simp [tried.prime dvd enough]
      · have next := tried.next odd dvd (not_le.mp enough)
        have lt := next.lt
        obtain ⟨sum, added, hsum⟩ := exact.add hy (exact.lit (show 2 ≤ 4 by decide)) (exact.down lt.le here)
        have step : A.test (.loop x y) = .ok (.next (.loop x sum)) := by
          simp [Arithmetic.test, bind, Except.bind, pure, Except.pure, divided, rest, dvd, multiplied,
            last, enough, added]
        exact TurnsTo.next step ⟨m - (i + 2), by omega, sum, i + 2, rfl, hsum, next, rfl⟩
  obtain ⟨result, ends, rfl⟩ := ends
  exact ends

theorem test_ends (exact : A.Exact fits den) {x y : α} (magnitude : A.abs y = .ok x) (hx : den x m)
    (here : fits m) (room : m.Prime → ∃ l, l % 2 = 1 ∧ m ≤ l * l ∧ fits (l * l)) :
    Ends A.test (.start y) (.ok (decide (m.Prime ∨ m < 2))) := by
  have small : A.lt x (A.lit 4) = decide (m < 4) := exact.lt hx (exact.lit le_rfl)
  obtain ⟨z, divided, hz⟩ := exact.mod hx (exact.lit (show 2 ≤ 4 by decide)) (show 0 < 2 by decide)
  have even : A.eq z (A.lit 0) = decide (m % 2 = 0) := exact.eq hz (exact.lit (by decide))
  by_cases lt : m < 4
  · have all : ∀ k < 4, k.Prime ∨ k < 2 := by decide
    have judged := all m lt
    have step : A.test (.start y) = .ok (.done true) := by
      simp [Arithmetic.test, bind, Except.bind, pure, Except.pure, magnitude, small, lt]
    rw [ends_done step]
    simpa using judged
  · have large : ¬m < 2 := by omega
    by_cases two : m % 2 = 0
    · have composite : ¬m.Prime := by
        intro prime
        have := prime.eq_two_or_odd
        omega
      have step : A.test (.start y) = .ok (.done false) := by
        simp [Arithmetic.test, bind, Except.bind, pure, Except.pure, magnitude, small, lt, divided,
          even, two]
      rw [ends_done step]
      simp [composite, large]
    · have step : A.test (.start y) = .ok (.next (.loop x (A.lit 3))) := by
        simp [Arithmetic.test, bind, Except.bind, pure, Except.pure, magnitude, small, lt, divided,
          even, two]
      have odd : m % 2 = 1 := by omega
      rw [ends_next step]
      simpa [large] using
        test_loop exact hx here odd room (exact.lit (by decide)) (tried_three odd (by omega))

end Test

section Search

variable {A : Arithmetic ε α} {fits : ℕ → Prop} {den : α → ℕ → Prop} {m : ℕ}

structure Left (fits : ℕ → Prop) (m n p : ℕ) (results : List ℕ) : Prop where
  two : 2 ≤ p
  big : 2 ≤ n
  least : ∀ q, q.Prime → q ∣ n → p ≤ q
  square : fits (p * p)
  product : results.prod * n = m
  primes : ∀ q ∈ results, q.Prime ∧ q ≤ p
  falling : results.Pairwise (· ≥ ·)

variable {n p : ℕ} {results : List ℕ}

theorem Left.prime (left : Left fits m n p results) (more : n < p * p) : n.Prime := by
  by_contra composite
  have big := left.big
  have square := Nat.minFac_sq_le_self (show 0 < n by omega) composite
  have le := left.least n.minFac (Nat.minFac_prime (by omega)) (Nat.minFac_dvd n)
  have := Nat.mul_self_le_mul_self le
  rw [Nat.pow_two] at square
  omega

theorem Left.done (left : Left fits m n p results) (more : n < p * p) :
    (n :: results).reverse.Pairwise (· ≤ ·) ∧ (∀ q ∈ (n :: results).reverse, q.Prime) ∧
      (n :: results).reverse.prod = m := by
  have prime := left.prime more
  have last := left.least n prime dvd_rfl
  have ascending : (n :: results).Pairwise (· ≥ ·) :=
    left.falling.cons fun q mem => (left.primes q mem).2.trans last
  apply And.intro (List.pairwise_reverse.mpr ascending)
  constructor
  · intro q mem
    rcases List.mem_cons.mp (List.mem_reverse.mp mem) with same | found
    · rwa [same]
    · exact (left.primes q found).1
  · rw [List.prod_reverse, List.prod_cons, Nat.mul_comm, left.product]

theorem Left.divide (left : Left fits m n p results) (enough : p * p ≤ n)
    (dvd : p ∣ n) : Left fits m (n / p) p (p :: results) where
  __ := left
  big := by
    have two := left.two
    exact two.trans ((Nat.le_div_iff_mul_le (by omega)).mpr enough)
  least := fun q prime below => left.least q prime (below.trans (Nat.div_dvd_of_dvd dvd))
  product := by
    rw [List.prod_cons, Nat.mul_comm p, Nat.mul_assoc, Nat.mul_div_cancel' dvd, left.product]
  primes := by
    have two := left.two
    have factor := Nat.minFac_prime (show p ≠ 1 by omega)
    have le := left.least p.minFac factor ((Nat.minFac_dvd p).trans dvd)
    have same : p.minFac = p := le_antisymm (Nat.minFac_le (by omega)) le
    intro q mem
    rcases List.mem_cons.mp mem with rfl | found
    · exact ⟨same ▸ factor, le_rfl⟩
    · exact left.primes q found
  falling := left.falling.cons fun q mem => (left.primes q mem).2

theorem Left.le_or_eq (left : Left fits m n p results) (pos : 0 < m) : n = m ∨ 2 * n ≤ m := by
  have product := left.product
  rcases Nat.lt_trichotomy results.prod 1 with none | one | more
  · rw [Nat.lt_one_iff.mp none] at product
    omega
  · rw [one] at product
    omega
  · have le := Nat.mul_le_mul_right n more
    omega

theorem Left.least_succ (left : Left fits m n p results) (other : ¬p ∣ n) :
    ∀ q, q.Prime → q ∣ n → p + 1 ≤ q := by
  intro q prime dvd
  have le := left.least q prime dvd
  have ne : p ≠ q := fun same => other (same ▸ dvd)
  omega

theorem Left.square_succ (left : Left fits m n p results) (enough : p * p ≤ n)
    (other : ¬p ∣ n) (down : ∀ {a b}, a ≤ b → fits b → fits a) (pos : 0 < m) (here : fits m)
    (room : m.Prime → ∃ l, m < l * l ∧ fits (l * l)) : fits ((p + 1) * (p + 1)) := by
  have two := left.two
  have big := left.big
  have part := left.le_or_eq pos
  by_cases prime : n.Prime
  · rcases part with same | half
    · obtain ⟨l, more, large⟩ := room (same ▸ prime)
      have lt : p < l := Nat.mul_self_lt_mul_self_iff.mp (by omega)
      exact down (Nat.mul_self_le_mul_self lt) large
    · have ne : p * p ≠ n := fun square => other ⟨p, square.symm⟩
      have double := Nat.mul_le_mul_right p two
      have expand : (p + 1) * (p + 1) = p * p + 2 * p + 1 := by ring
      apply down _ here
      omega
  · have square := Nat.minFac_sq_le_self (show 0 < n by omega) prime
    have le := left.least_succ other n.minFac (Nat.minFac_prime (by omega)) (Nat.minFac_dvd n)
    rw [Nat.pow_two] at square
    have bound := (Nat.mul_self_le_mul_self le).trans square
    exact down (show _ ≤ m by omega) here

theorem Left.next (left : Left fits m n p results) (other : ¬p ∣ n)
    (square : fits ((p + 1) * (p + 1))) : Left fits m n (p + 1) results where
  two := left.two.trans (Nat.le_succ p)
  __ := left
  least := left.least_succ other
  square := square
  primes := fun q mem => ⟨(left.primes q mem).1, (left.primes q mem).2.trans (Nat.le_succ p)⟩

def Stands (den : α → ℕ → Prop) (s : Search α) (n p : ℕ) (results : List ℕ) : Prop :=
  den s.n n ∧ den s.p p ∧ List.Forall₂ den s.results results

def Factorization (den : α → ℕ → Prop) (m : ℕ) (factors : List α) : Prop :=
  ∃ ps : List ℕ, List.Forall₂ den factors ps ∧ ps.Pairwise (· ≤ ·) ∧ (∀ q ∈ ps, q.Prime) ∧ ps.prod = m

theorem search_ends (exact : A.Exact fits den) {x : α} (hx : den x m) (two : 2 ≤ m) (here : fits m)
    (small : fits 4) (room : m.Prime → ∃ l, m < l * l ∧ fits (l * l)) :
    ∃ factors, Ends A.search ⟨x, A.lit 2, []⟩ (.ok factors) ∧ Factorization den m factors := by
  have ends : ∃ result, Ends A.search ⟨x, A.lit 2, []⟩ result ∧
      ∃ factors, result = .ok factors ∧ Factorization den m factors := by
    have start : Left fits m m 2 [] :=
      ⟨le_rfl, two, fun q prime _ => prime.two_le, small, by simp, by simp, List.Pairwise.nil⟩
    apply ends_of_ranks (P := fun r s => ∃ n p results, Stands den s n p results ∧
      Left fits m n p results ∧ r = 2 * n - p) _
      ⟨m, 2, [], ⟨hx, exact.lit (by decide), .nil⟩, start, rfl⟩
    intro r ⟨xn, xp, xs⟩ ⟨n, p, results, ⟨hn, hp, hs⟩, left, rank⟩
    obtain ⟨square, multiplied, hsq⟩ := exact.mul hp hp left.square
    have twoLe := left.two
    obtain ⟨z, divided, hz⟩ := exact.mod hn hp (show 0 < p by omega)
    obtain ⟨quotient, halved, hq⟩ := exact.div hn hp (show 0 < p by omega)
    have last : A.gt square xn = decide (n < p * p) := exact.gt hsq hn
    have rest : A.eq z (A.lit 0) = decide (p ∣ n) := by
      rw [exact.eq hz (exact.lit (by decide))]
      exact decide_eq_decide.mpr Nat.dvd_iff_mod_eq_zero.symm
    by_cases more : n < p * p
    · apply TurnsTo.done (r := (xn :: xs).reverse)
      · simp [Arithmetic.search, bind, Except.bind, pure, Except.pure, multiplied, last, more]
      · exact ⟨_, rfl, _, List.rel_reverse (.cons hn hs), left.done more⟩
    · have enough := not_lt.mp more
      have le : p ≤ n := (Nat.le_mul_self p).trans enough
      by_cases dvd : p ∣ n
      · have next := left.divide enough dvd
        have less : n / p < n := Nat.div_lt_self (by omega) twoLe
        have step : A.search ⟨xn, xp, xs⟩ = .ok (.next ⟨quotient, xp, xp :: xs⟩) := by
          simp [Arithmetic.search, bind, Except.bind, pure, Except.pure, multiplied, last, more,
            divided, rest, dvd, halved]
        exact TurnsTo.next step ⟨_, by omega, n / p, p, p :: results, ⟨hq, hp, .cons hp hs⟩, next, rfl⟩
      · have part := left.le_or_eq (show 0 < m by omega)
        have squareSucc := left.square_succ enough dvd exact.down (by omega) here room
        obtain ⟨sum, added, hsum⟩ := exact.add hp (exact.lit (show 1 ≤ 4 by decide))
          (exact.down (Nat.le_mul_self (p + 1)) squareSucc)
        have step : A.search ⟨xn, xp, xs⟩ = .ok (.next ⟨xn, sum, xs⟩) := by
          simp [Arithmetic.search, bind, Except.bind, pure, Except.pure, multiplied, last, more,
            divided, rest, dvd, added]
        exact TurnsTo.next step
          ⟨_, by omega, n, p + 1, results, ⟨hn, hsum, hs⟩, left.next dvd squareSucc, rfl⟩
  obtain ⟨_, ends, factors, rfl, found⟩ := ends
  exact ⟨factors, ends, found⟩

end Search

end TrialDivision
