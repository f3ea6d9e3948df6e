import Mythryl.Graph.BipartiteMatching
import Mathlib.Data.Finset.Card
import Mathlib.Data.Prod.Lex

/-! # The phases of the search -/

namespace Mythryl.Graph.BipartiteMatching
open Loop

variable {E : Type}

abbrev Rank := Nat ×ₗ Nat ×ₗ Nat ×ₗ Nat ×ₗ Nat ×ₗ Nat

/-- The rank of a state: the unmarried nodes, the stage of the phase, the nodes that are not marked
(or the rest of the path), the roots, the queue, and what is left of the call. -/
def rank (free stage unmarked roots queue rest : Nat) : Rank :=
  toLex (free, toLex (stage, toLex (unmarked, toLex (roots, toLex (queue, rest)))))

section Definitions

variable (g : Digraph E) (side : Int → Bool) (unmarried : List Int)

def free (mate : RwVector Int) : Nat :=
  (g.nodes.toFinset.filter fun x => mate.cell x = -1).card

def unmarkedNodes (visited : RwVector Int) (phase : Int) : Nat :=
  (g.nodes.toFinset.filter fun x => visited.cell x ≠ phase).card

structure Pending (mate : RwVector Int) (R : Set Int) (roots : List Int) : Prop where
  rooted : ∀ x ∈ g.nodes, mate.cell x = -1 → x ∈ R ∨ x ∈ roots
  listed : ∀ x ∈ g.nodes, mate.cell x = -1 → x ∈ unmarried
  nodes : ∀ r ∈ roots, r ∈ g.nodes

def queueOf (l r : List Int) : Set Int := { u | u ∈ l ∨ u ∈ r }

structure Scanning (phase : Int) (vectors : Vectors) (R O : Set Int) (u : Int)
    (vs l r roots : List Int) : Prop where
  searching : Searching g side phase vectors R O (queueOf l r) fun x y => x = u ∧ y ∈ vs
  even : Even R O vectors.mate u
  adjacent : ∀ v ∈ vs, Adjacent g u v
  sameSide : ∀ q ∈ queueOf l r, side q = side u
  pending : Pending g unmarried vectors.mate R roots

inductive Ranked : Rank → State → Prop
  | bfsRoots {phase : Int} {vectors : Vectors} {R O : Set Int} {roots : List Int} :
      Searching g side phase vectors R O ∅ (fun _ _ => False) →
      Pending g unmarried vectors.mate R roots →
      Ranked (rank (free g vectors.mate) 1 (unmarkedNodes g vectors.visited phase)
        (2 * roots.length) 0 0) ⟨phase, .bfsRoots roots, vectors⟩
  | bfs {phase : Int} {vectors : Vectors} {R O : Set Int} {l r roots : List Int} {b : Bool} :
      Searching g side phase vectors R O (queueOf l r) (fun _ _ => False) →
      (∀ q ∈ queueOf l r, side q = b) → Pending g unmarried vectors.mate R roots →
      Ranked (rank (free g vectors.mate) 1 (unmarkedNodes g vectors.visited phase)
        (2 * roots.length + 1) (l.length + r.length) (if l = [] then 1 else 0))
          ⟨phase, .bfs l r roots, vectors⟩
  | bfsOdd {phase : Int} {vectors : Vectors} {R O : Set Int} {u : Int} {vs l r roots : List Int} :
      Scanning g side unmarried phase vectors R O u vs l r roots →
      vectors.mate.cell u ∈ O →
      Ranked (rank (free g vectors.mate) 1 (unmarkedNodes g vectors.visited phase)
        (2 * roots.length + 1) (l.length + r.length) (2 + vs.length))
          ⟨phase, .bfsOdd u vs l r roots, vectors⟩
  | bfsEven {phase : Int} {vectors : Vectors} {R O : Set Int} {u : Int} {vs l r roots : List Int} :
      Scanning g side unmarried phase vectors R O u vs l r roots → vectors.mate.cell u = -1 →
      Ranked (rank (free g vectors.mate) 1 (unmarkedNodes g vectors.visited phase)
        (2 * roots.length + 1) (l.length + r.length) (2 + vs.length))
          ⟨phase, .bfsEven u vs l r roots, vectors⟩
  | path {phase x : Int} {vectors : Vectors} {trail : List Int} :
      Augmenting g vectors x trail → (∀ y, vectors.visited.cell y ≤ phase) →
      (∀ y ∈ g.nodes, vectors.mate.cell y = -1 → y ∈ unmarried) →
      Ranked (rank (free g vectors.mate) 0 trail.length 0 0 0) ⟨phase, .path x, vectors⟩
  | found {phase : Int} {vectors : Vectors} : Proper g vectors.mate → Maximal g vectors.mate →
      vectors.visited.length = g.capacity → vectors.prior.length = g.capacity →
      (∀ y, vectors.visited.cell y ≤ phase) →
      (∀ y ∈ g.nodes, vectors.mate.cell y = -1 → y ∈ unmarried) →
      Ranked (rank (free g vectors.mate) 2 0 0 0 0) ⟨phase, .path (-1), vectors⟩

def Finished (searched : Except Raised Vectors) : Prop :=
  ∃ vectors phase R O, searched = .ok vectors ∧
    Searching g side phase vectors R O ∅ (fun _ _ => False) ∧
    ∀ x ∈ g.nodes, vectors.mate.cell x = -1 → x ∈ R

abbrev Lowers (m : Rank) : State → Prop :=
  TurnsTo (turn g unmarried) (fun s => ∃ m' < m, Ranked g side unmarried m' s) (Finished g side)

end Definitions

section Ranks

variable {g : Digraph E} {side : Int → Bool} {unmarried : List Int} {phase u v x : Int}
  {vectors : Vectors} {R O : Set Int} {vs l r roots : List Int} {a b c d e f a' b' c' d' e' f' : Nat}

theorem rank_lt_iff : rank a b c d e f < rank a' b' c' d' e' f' ↔ a < a' ∨ a = a' ∧ (b < b' ∨
    b = b' ∧ (c < c' ∨ c = c' ∧ (d < d' ∨ d = d' ∧ (e < e' ∨ e = e' ∧ f < f')))) := by
  simp only [rank, Prod.Lex.toLex_lt_toLex]

theorem card_filter_lt {p q : Int → Prop} [DecidablePred p] [DecidablePred q]
    (imp : ∀ x ∈ g.nodes, p x → q x) (mem : x ∈ g.nodes) (is : q x) (isNot : ¬p x) :
    (g.nodes.toFinset.filter p).card < (g.nodes.toFinset.filter q).card := by
  apply Finset.card_lt_card
  rw [Finset.ssubset_iff_of_subset]
  · exact ⟨x, Finset.mem_filter.mpr ⟨List.mem_toFinset.mpr mem, is⟩,
      fun member => isNot (Finset.mem_filter.mp member).2⟩
  · intro y member
    obtain ⟨memY, holds⟩ := Finset.mem_filter.mp member
    exact Finset.mem_filter.mpr ⟨memY, imp y (List.mem_toFinset.mp memY) holds⟩

theorem unmarkedNodes_lt {visited visited' : RwVector Int}
    (more : ∀ x, visited.cell x = phase → visited'.cell x = phase) (mem : x ∈ g.nodes)
    (unmarked : visited.cell x ≠ phase) (marked : visited'.cell x = phase) :
    unmarkedNodes g visited' phase < unmarkedNodes g visited phase :=
  card_filter_lt (fun y _ => mt (more y)) mem unmarked (not_not.mpr marked)

variable {mate : RwVector Int}

theorem free_le {mate' : RwVector Int}
    (more : ∀ x ∈ g.nodes, mate.cell x ≠ -1 → mate'.cell x ≠ -1) : free g mate' ≤ free g mate := by
  apply Finset.card_le_card
  intro y member
  obtain ⟨memY, none⟩ := Finset.mem_filter.mp member
  refine Finset.mem_filter.mpr ⟨memY, ?_⟩
  by_contra married
  exact more y (List.mem_toFinset.mp memY) married none

theorem free_lt {mate' : RwVector Int}
    (more : ∀ x ∈ g.nodes, mate.cell x ≠ -1 → mate'.cell x ≠ -1) (mem : x ∈ g.nodes)
    (none : mate.cell x = -1) (married : mate'.cell x ≠ -1) : free g mate' < free g mate :=
  card_filter_lt (fun y memY none' => by_contra fun some => more y memY some none') mem none married

@[simp] theorem queueOf_nil : queueOf [] [] = ∅ := by
  ext
  simp [queueOf]

theorem queueOf_cons : insert v (queueOf l r) = queueOf l (v :: r) := by
  ext x
  change x = v ∨ x ∈ l ∨ x ∈ r ↔ x ∈ l ∨ x ∈ v :: r
  rw [List.mem_cons, or_left_comm]

theorem Pending.tail (pending : Pending g unmarried vectors.mate R (x :: roots))
    (root : vectors.mate.cell x = -1 → x ∈ R) : Pending g unmarried vectors.mate R roots := by
  refine ⟨fun y mem none => ?_, pending.listed,
    fun y mem => pending.nodes y (List.mem_cons_of_mem x mem)⟩
  rcases pending.rooted y mem none with isRoot | member
  · exact .inl isRoot
  · rcases List.mem_cons.mp member with rfl | later
    · exact .inl (root none)
    · exact .inr later

theorem ranked_bfsRoots
    (searching : Searching g side phase vectors R O ∅ fun _ _ => False)
    (pending : Pending g unmarried vectors.mate R roots) :
    Lowers g side unmarried (rank (free g vectors.mate) 1 (unmarkedNodes g vectors.visited phase)
      (2 * roots.length) 0 0) ⟨phase, .bfsRoots roots, vectors⟩ := by
  cases roots with
  | nil =>
    refine .done rfl ⟨vectors, phase, R, O, rfl, searching, fun x mem none => ?_⟩
    exact (pending.rooted x mem none).resolve_right List.not_mem_nil
  | cons r roots =>
    have mem : r ∈ g.nodes := pending.nodes r List.mem_cons_self
    have isMarked := marked_ok phase searching.visited_length mem
    have isMarried := searching.proper.married mem
    have fewer : 2 * roots.length < 2 * (r :: roots).length := by simp
    by_cases marked : vectors.visited.cell r = phase
    · have step : turn g unmarried ⟨phase, .bfsRoots (r :: roots), vectors⟩ =
          .ok (.next ⟨phase, .bfsRoots roots, vectors⟩) := by
        rw [turn, isMarked, ok_bind, if_pos (decide_eq_true marked)]
      refine .next step ⟨_, ?_, .bfsRoots searching (pending.tail fun none => ?_)⟩
      · rw [rank_lt_iff]
        omega
      · rcases (searching.marked r mem).mp marked with odd | root | mateOdd
        · exact ((searching.odd r odd).2.1 none).elim
        · exact root
        · rw [none] at mateOdd
          exact (ne_none (searching.odd _ mateOdd).1 rfl).elim
    by_cases married : vectors.mate.cell r ≠ -1
    · have step : turn g unmarried ⟨phase, .bfsRoots (r :: roots), vectors⟩ =
          .ok (.next ⟨phase, .bfsRoots roots, vectors⟩) := by
        rw [turn, isMarked, ok_bind, if_neg (mt of_decide_eq_true marked), isMarried, ok_bind,
          if_pos (decide_eq_true married)]
      refine .next step ⟨_, ?_, .bfsRoots searching (pending.tail fun none => (married none).elim)⟩
      rw [rank_lt_iff]
      omega
    · have step : turn g unmarried ⟨phase, .bfsRoots (r :: roots), vectors⟩ =
          .ok (.next ⟨phase, .bfsEven r (neighbors g r) [] [] roots,
            { vectors with visited := vectors.visited.put r phase }⟩) := by
        rw [turn, isMarked, ok_bind, if_neg (mt of_decide_eq_true marked), isMarried, ok_bind,
          if_neg (mt of_decide_eq_true married), mark_ok searching.visited_length mem, ok_bind]
      have none := not_not.mp married
      refine .next step ⟨_, ?_, .bfsEven (R := insert r R) (O := O) ⟨?_, .inl (.inl rfl),
        fun v member => mem_neighbors.mp member, by simp, ?_⟩ none⟩
      · have unmarked : unmarkedNodes g (vectors.visited.put r phase) phase <
            unmarkedNodes g vectors.visited phase := by
          refine unmarkedNodes_lt (fun x was => ?_) mem marked RwVector.put_cell_self
          by_cases same : x = r
          · rw [same, RwVector.put_cell_self]
          · rw [RwVector.put_cell_of_ne same, was]
        rw [rank_lt_iff]
        dsimp only
        omega
      · rw [queueOf_nil]
        exact searching.root mem none marked
      · refine ⟨fun x memX noneX => ?_, pending.listed,
          fun x member => pending.nodes x (List.mem_cons_of_mem r member)⟩
        rcases pending.rooted x memX noneX with isRoot | member
        · exact .inl (.inr isRoot)
        · rcases List.mem_cons.mp member with rfl | later
          · exact .inl (.inl rfl)
          · exact .inr later

theorem ranked_bfs {b : Bool}
    (searching : Searching g side phase vectors R O (queueOf l r) fun _ _ => False)
    (sameSide : ∀ q ∈ queueOf l r, side q = b)
    (pending : Pending g unmarried vectors.mate R roots) :
    Lowers g side unmarried (rank (free g vectors.mate) 1 (unmarkedNodes g vectors.visited phase)
      (2 * roots.length + 1) (l.length + r.length) (if l = [] then 1 else 0))
        ⟨phase, .bfs l r roots, vectors⟩ := by
  cases l with
  | nil =>
    cases r with
    | nil =>
      rw [queueOf_nil] at searching
      refine .next rfl ⟨_, ?_, .bfsRoots searching pending⟩
      rw [rank_lt_iff]
      omega
    | cons w r =>
      have same : queueOf (w :: r).reverse [] = queueOf [] (w :: r) := by
        ext
        simp [queueOf, or_comm]
      refine .next rfl ⟨_, ?_, .bfs (b := b) (same ▸ searching) (same ▸ sameSide) pending⟩
      rw [rank_lt_iff]
      simp
  | cons u l =>
    have waits : u ∈ queueOf (u :: l) r := .inl List.mem_cons_self
    obtain ⟨mem, mateOdd⟩ := searching.queued u waits
    refine .next rfl ⟨_, ?_, .bfsOdd (R := R) (O := O) ⟨?_, .inr mateOdd,
      fun v member => mem_neighbors.mp member, fun q waitsQ => ?_, pending⟩ mateOdd⟩
    · rw [rank_lt_iff]
      simp
    · refine { searching with closed := fun x memX even y adjacent => ?_, queued := ?_ }
      · rcases searching.closed x memX even y adjacent with odd | (front | back) | isDue
        · exact .inl odd
        · rcases List.mem_cons.mp front with rfl | later
          · exact .inr (.inr ⟨rfl, mem_neighbors.mpr adjacent⟩)
          · exact .inr (.inl (.inl later))
        · exact .inr (.inl (.inr back))
        · exact isDue.elim
      · exact fun q waitsQ => searching.queued q (waitsQ.imp (List.mem_cons_of_mem u) id)
    · rw [sameSide u waits, sameSide q (waitsQ.imp (List.mem_cons_of_mem u) id)]

theorem Scanning.skip (scanning : Scanning g side unmarried phase vectors R O u (v :: vs) l r roots)
    (bipartite : Bipartite g side) (marked : vectors.visited.cell v = phase) :
    Scanning g side unmarried phase vectors R O u vs l r roots := by
  have adjacent := scanning.adjacent v List.mem_cons_self
  have odd := scanning.searching.odd_of_marked bipartite scanning.even scanning.sameSide
    (fun _ _ isDue => isDue.1) adjacent marked
  exact { scanning with
    searching := scanning.searching.skip odd
    adjacent := fun w member => scanning.adjacent w (List.mem_cons_of_mem v member) }

theorem Scanning.explore
    (scanning : Scanning g side unmarried phase vectors R O u (v :: vs) l r roots)
    (bipartite : Bipartite g side) (unmarked : vectors.visited.cell v ≠ phase)
    (married : vectors.mate.cell v ≠ -1) :
    Scanning g side unmarried phase (explored vectors phase u v) R (insert v O) u vs l
      (vectors.mate.cell v :: r) roots := by
  have adjacent := scanning.adjacent v List.mem_cons_self
  have pair := scanning.searching.proper.paired v adjacent.mem.2 married
  constructor
  case searching =>
    rw [← queueOf_cons]
    exact scanning.searching.explore bipartite scanning.even adjacent unmarked married
  case even => exact scanning.even.imp id .inr
  case adjacent => exact fun w member => scanning.adjacent w (List.mem_cons_of_mem v member)
  case sameSide =>
    rw [← queueOf_cons]
    rintro q (rfl | waits)
    · -- Two edges away the side is the same.
      have away := bipartite.ne adjacent
      have back := bipartite.ne pair.adjacent
      revert away back
      cases side u <;> cases side v <;> simp
    · exact scanning.sameSide q waits
  case pending => exact scanning.pending

theorem Scanning.explored_lt
    (scanning : Scanning g side unmarried phase vectors R O u (v :: vs) l r roots)
    (unmarked : vectors.visited.cell v ≠ phase) :
    unmarkedNodes g (explored vectors phase u v).visited phase <
      unmarkedNodes g vectors.visited phase := by
  refine unmarkedNodes_lt (fun x was => ?_) (scanning.adjacent v List.mem_cons_self).mem.2
    unmarked ?_
  · rw [explored_visited, was, ite_self]
  · rw [explored_visited, if_pos (.inr rfl)]

theorem Scanning.explored_ok
    (scanning : Scanning g side unmarried phase vectors R O u (v :: vs) l r roots)
    (married : vectors.mate.cell v ≠ -1) {s : Vectors → Except Raised (Turn State Vectors)} :
    (mark vectors phase v >>= fun vectors₁ => mark vectors₁ phase (vectors.mate.cell v) >>=
      fun vectors₂ => edge vectors₂ u v >>= s) = s (explored vectors phase u v) := by
  have mem := (scanning.adjacent v List.mem_cons_self).mem.2
  have pair := scanning.searching.proper.paired v mem married
  have length := scanning.searching.visited_length
  have second : mark { vectors with visited := vectors.visited.put v phase } phase
      (vectors.mate.cell v) = .ok { vectors with
        visited := (vectors.visited.put v phase).put (vectors.mate.cell v) phase } :=
    mark_ok length pair.mem
  have third : edge { vectors with
      visited := (vectors.visited.put v phase).put (vectors.mate.cell v) phase } u v =
        .ok (explored vectors phase u v) :=
    edge_ok scanning.searching.prior_length mem
  rw [mark_ok length mem, ok_bind, second, ok_bind, third, ok_bind]

theorem Scanning.mate_ok
    (scanning : Scanning g side unmarried phase vectors R O u (v :: vs) l r roots) :
    vectors.mate.get v = .ok (vectors.mate.cell v) :=
  RwVector.get_of_within (within_of_length scanning.searching.proper.length
    (scanning.adjacent v List.mem_cons_self).mem.2)

theorem ranked_bfsEven (bipartite : Bipartite g side)
    (scanning : Scanning g side unmarried phase vectors R O u vs l r roots)
    (none : vectors.mate.cell u = -1) :
    Lowers g side unmarried (rank (free g vectors.mate) 1 (unmarkedNodes g vectors.visited phase)
      (2 * roots.length + 1) (l.length + r.length) (2 + vs.length))
        ⟨phase, .bfsEven u vs l r roots, vectors⟩ := by
  cases vs with
  | nil =>
    refine .next rfl ⟨_, ?_, .bfs (b := side u) (R := R) (O := O) ?_ scanning.sameSide
      scanning.pending⟩
    · rw [rank_lt_iff]
      split <;> simp
    · simpa using scanning.searching
  | cons v vs =>
    have adjacent := scanning.adjacent v List.mem_cons_self
    have mem := adjacent.mem.2
    have isMarked := marked_ok phase scanning.searching.visited_length mem
    by_cases marked : vectors.visited.cell v = phase
    · have step : turn g unmarried ⟨phase, .bfsEven u (v :: vs) l r roots, vectors⟩ =
          .ok (.next ⟨phase, .bfsEven u vs l r roots, vectors⟩) := by
        rw [turn, isMarked, ok_bind, if_pos (decide_eq_true marked)]
      refine .next step ⟨_, ?_, .bfsEven (scanning.skip bipartite marked) none⟩
      rw [rank_lt_iff]
      simp
    · have married := (scanning.searching.maximal u v adjacent).resolve_left (not_not.mpr none)
      have step : turn g unmarried ⟨phase, .bfsEven u (v :: vs) l r roots, vectors⟩ =
          .ok (.next ⟨phase, .bfsEven u vs l (vectors.mate.cell v :: r) roots,
            explored vectors phase u v⟩) := by
        rw [turn, isMarked, ok_bind, if_neg (mt of_decide_eq_true marked), scanning.mate_ok,
          ok_bind]
        exact scanning.explored_ok married
      refine .next step ⟨_, ?_, .bfsEven (scanning.explore bipartite marked married) none⟩
      have fewer := scanning.explored_lt marked
      rw [rank_lt_iff]
      exact .inr ⟨rfl, .inr ⟨rfl, .inl fewer⟩⟩

theorem ranked_bfsOdd (bipartite : Bipartite g side)
    (scanning : Scanning g side unmarried phase vectors R O u vs l r roots)
    (isOdd : vectors.mate.cell u ∈ O) :
    Lowers g side unmarried (rank (free g vectors.mate) 1 (unmarkedNodes g vectors.visited phase)
      (2 * roots.length + 1) (l.length + r.length) (2 + vs.length))
        ⟨phase, .bfsOdd u vs l r roots, vectors⟩ := by
  cases vs with
  | nil =>
    refine .next rfl ⟨_, ?_, .bfs (b := side u) (R := R) (O := O) ?_ scanning.sameSide
      scanning.pending⟩
    · rw [rank_lt_iff]
      split <;> simp
    · simpa using scanning.searching
  | cons v vs =>
    have adjacent := scanning.adjacent v List.mem_cons_self
    have mem := adjacent.mem.2
    have isMarked := marked_ok phase scanning.searching.visited_length mem
    by_cases marked : vectors.visited.cell v = phase
    · have step : turn g unmarried ⟨phase, .bfsOdd u (v :: vs) l r roots, vectors⟩ =
          .ok (.next ⟨phase, .bfsOdd u vs l r roots, vectors⟩) := by
        rw [turn, isMarked, ok_bind, if_pos (decide_eq_true marked)]
      refine .next step ⟨_, ?_, .bfsOdd (scanning.skip bipartite marked) isOdd⟩
      rw [rank_lt_iff]
      simp
    have notMate : u ≠ vectors.mate.cell v := by
      intro same
      have married : vectors.mate.cell v ≠ -1 := by
        rw [← same]
        exact ne_none adjacent.mem.1
      have back := (scanning.searching.proper.paired v mem married).back
      rw [← same] at back
      rw [back] at isOdd
      exact (scanning.searching.unmarked mem marked).1 isOdd
    by_cases none : vectors.mate.cell v = -1
    · have step : turn g unmarried ⟨phase, .bfsOdd u (v :: vs) l r roots, vectors⟩ =
          .ok (.next ⟨phase, .path v, { vectors with prior := vectors.prior.put v u }⟩) := by
        rw [turn, isMarked, ok_bind, if_neg (mt of_decide_eq_true marked), scanning.mate_ok,
          ok_bind, if_neg notMate, if_pos (by rw [none]; decide),
          edge_ok scanning.searching.prior_length mem, ok_bind]
      obtain ⟨trail, augmenting⟩ := scanning.searching.found scanning.even adjacent marked none
      refine .next step ⟨_, ?_, .path augmenting scanning.searching.bound scanning.pending.listed⟩
      rw [rank_lt_iff]
      exact .inr ⟨rfl, .inl Nat.zero_lt_one⟩
    · have step : turn g unmarried ⟨phase, .bfsOdd u (v :: vs) l r roots, vectors⟩ =
          .ok (.next ⟨phase, .bfsOdd u vs l (vectors.mate.cell v :: r) roots,
            explored vectors phase u v⟩) := by
        rw [turn, isMarked, ok_bind, if_neg (mt of_decide_eq_true marked), scanning.mate_ok,
          ok_bind, if_neg notMate, if_neg (mt (scanning.searching.proper.lt_iff mem).mp none)]
        exact scanning.explored_ok none
      refine .next step ⟨_, ?_, .bfsOdd (scanning.explore bipartite marked none) (.inr isOdd)⟩
      have fewer := scanning.explored_lt marked
      rw [rank_lt_iff]
      exact .inr ⟨rfl, .inr ⟨rfl, .inl fewer⟩⟩

theorem ranked_path {trail : List Int} (augmenting : Augmenting g vectors x trail)
    (bound : ∀ y, vectors.visited.cell y ≤ phase)
    (listed : ∀ y ∈ g.nodes, vectors.mate.cell y = -1 → y ∈ unmarried) :
    Lowers g side unmarried (rank (free g vectors.mate) 0 trail.length 0 0 0)
      ⟨phase, .path x, vectors⟩ := by
  obtain ⟨u, trail, rfl, prior, adjacent⟩ := augmenting.first
  have memU := adjacent.mem.2
  have step : turn g unmarried ⟨phase, .path x, vectors⟩ = .ok (.next
      ⟨phase, .path (vectors.mate.cell u), { vectors with mate := rematched vectors.mate x u }⟩) := by
    rw [turn, if_neg (ne_none augmenting.mem),
      RwVector.get_of_within (within_of_length augmenting.prior_length augmenting.mem), ok_bind,
      prior, RwVector.get_of_within (within_of_length augmenting.mate_length memU), ok_bind,
      match_ok augmenting.mate_length augmenting.mem memU, ok_bind]
    rfl
  have more (y : Int) (_ : y ∈ g.nodes) (married : vectors.mate.cell y ≠ -1) :
      (rematched vectors.mate x u).cell y ≠ -1 := augmenting.stays_married (.inr married)
  have listed' (y : Int) (mem : y ∈ g.nodes) (none : (rematched vectors.mate x u).cell y = -1) :
      y ∈ unmarried := listed y mem (by_contra fun married => more y mem married none)
  by_cases none : vectors.mate.cell u = -1
  · obtain ⟨proper, maximal⟩ := augmenting.last none
    rw [none] at step
    refine .next step ⟨_, ?_, .found proper maximal augmenting.visited_length
      augmenting.prior_length bound listed'⟩
    rw [rank_lt_iff]
    left
    apply free_lt more memU none
    rw [rematched_right]
    exact ne_none augmenting.mem
  · obtain ⟨trail', shorter, augmenting'⟩ := augmenting.step none
    refine .next step ⟨_, ?_, .path augmenting' bound listed'⟩
    rw [rank_lt_iff]
    rcases (free_le more).lt_or_eq with fewer | same
    · exact .inl fewer
    · exact .inr ⟨same, .inr ⟨rfl, .inl (shorter.trans (Nat.lt_succ_self _))⟩⟩

theorem searching_start {visited prior : RwVector Int} (proper : Proper g mate)
    (maximal : Maximal g mate) (visited_length : visited.length = g.capacity)
    (prior_length : prior.length = g.capacity) (bound : ∀ y, visited.cell y < phase) :
    Searching g side phase ⟨mate, visited, prior⟩ ∅ ∅ ∅ fun _ _ => False := by
  have none (x : Int) : ¬Even ∅ ∅ mate x := by
    rintro (root | odd)
    · exact root
    · exact odd
  constructor
  case proper => exact proper
  case maximal => exact maximal
  case visited_length => exact visited_length
  case prior_length => exact prior_length
  case bound => exact fun x => (bound x).le
  case marked =>
    intro x _
    constructor
    · exact fun same => ((bound x).ne same).elim
    · rintro (odd | even)
      · exact odd.elim
      · exact (none x even).elim
  case roots => exact fun _ root => root.elim
  case odd => exact fun _ odd => odd.elim
  case trail => exact fun x _ even => (none x even).elim
  case closed => exact fun x _ even => (none x even).elim
  case queued => exact fun _ waits => waits.elim

theorem ranked_turns (bipartite : Bipartite g side) (nodes : ∀ x ∈ unmarried, x ∈ g.nodes)
    (m : Rank) (s : State) (ranked : Ranked g side unmarried m s) : Lowers g side unmarried m s := by
  cases ranked with
  | bfsRoots searching pending => exact ranked_bfsRoots searching pending
  | bfs searching sameSide pending => exact ranked_bfs searching sameSide pending
  | bfsOdd scanning isOdd => exact ranked_bfsOdd bipartite scanning isOdd
  | bfsEven scanning none => exact ranked_bfsEven bipartite scanning none
  | path augmenting bound listed => exact ranked_path augmenting bound listed
  | @found phase vectors proper maximal visited_length prior_length bound listed =>
    have step : turn g unmarried ⟨phase, .path (-1), vectors⟩ =
        .ok (.next ⟨phase + 1, .bfsRoots unmarried, vectors⟩) := by
      rw [turn, if_pos rfl]
    refine .next step ⟨_, ?_, .bfsRoots (searching_start proper maximal visited_length
      prior_length fun y => Int.lt_add_one_of_le (bound y)) ⟨?_, listed, nodes⟩⟩
    · rw [rank_lt_iff]
      exact .inr ⟨rfl, .inl Nat.one_lt_two⟩
    · exact fun x mem none => .inr (listed x mem none)

end Ranks

end Mythryl.Graph.BipartiteMatching
