import Mythryl.Graph.Preflows
import Mathlib.Data.Prod.Lex

/-! # Lifting to the front -/

namespace Mythryl.Graph.MaximumFlow
open FlowNetworks Loop

variable {E G : Type} [AddCommGroup G] [LinearOrder G]

section Definitions

def Admissible (vs : Vectors E G) (x y : Int) : Prop :=
  Residual vs.neighbors.cell vs.value x y ∧ vs.dist.cell x = vs.dist.cell y + 1

def Sorted (vs : Vectors E G) (l : List Int) : Prop := l.Pairwise fun x y => ¬Admissible vs y x

structure Listed (g : Digraph E) (s t : Int) (l : List Int) : Prop where
  nodup : l.Nodup
  mem_iff : ∀ x, x ∈ l ↔ x ∈ g.nodes ∧ x ≠ s ∧ x ≠ t

variable (g : Digraph E) (s t : Int) (capacity : Edge E → G)

structure Iterating (f b : List Int) (vs : Vectors E G) : Prop where
  preflow : Preflow g s t capacity vs vs.excess.cell
  listed : Listed g s t (f.reverse ++ b)
  sorted : Sorted vs (f.reverse ++ b)
  zero : ∀ x ∈ f, vs.excess.cell x = 0

structure Discharging (f b : List Int) (u dU dV : Int) (eV : G) (es : List (Arc E G))
    (vs : Vectors E G) : Prop where
  preflow : Preflow g s t capacity vs (Function.update vs.excess.cell u eV)
  listed : Listed g s t (f.reverse ++ u :: b)
  height : vs.dist.cell u = dV
  arcs : ∀ a ∈ es, a ∈ vs.neighbors.cell u
  still : dU = dV → Sorted vs (f.reverse ++ u :: b) ∧ ∀ x ∈ f, vs.excess.cell x = 0
  lifted : dU ≠ dV → Sorted vs (f.reverse ++ b) ∧ ∀ x, ¬Admissible vs x u
  le : dU ≤ dV

def Complete (vs : Vectors E G) (u : Int) (es : List (Arc E G)) : Prop :=
  ∀ a ∈ vs.neighbors.cell u, vs.value a.flow < a.cap →
    vs.dist.cell u = vs.dist.cell a.target + 1 → a ∈ es

def potential (vs : Vectors E G) : Nat :=
  ∑ x ∈ nodeSet g, (2 * g.order - vs.dist.cell x).toNat

abbrev Rank := Nat ×ₗ Nat ×ₗ Nat ×ₗ Nat

def rank (potential nodes stage arcs : Nat) : Rank :=
  toLex (potential, toLex (nodes, toLex (stage, arcs)))

inductive Ranked : Rank → State E G → Prop
  | iterate {f b : List Int} {vs : Vectors E G} : Iterating g s t capacity f b vs →
      Ranked (rank (potential g vs) b.length 3 0) ⟨.iterate f b, vs⟩
  | loop {f b : List Int} {u dU dV : Int} {eV : G} {es : List (Arc E G)} {vs : Vectors E G}
      (complete : Bool) : Discharging g s t capacity f b u dU dV eV es vs → 0 < eV →
      (complete → Complete vs u es) →
      Ranked (rank (potential g vs) (if dU = dV then b.length + 1 else f.length + b.length + 1)
        (if complete then 1 else 2) es.length) ⟨.loop f b u dU dV eV es, vs⟩

def Finished (searched : Except Raised (Vectors E G)) : Prop :=
  ∃ vs, searched = .ok vs ∧ Preflow g s t capacity vs vs.excess.cell ∧
    ∀ x ∈ g.nodes, x ≠ s → x ≠ t → vs.excess.cell x = 0

end Definitions

section Turns

variable {g : Digraph E} {s t u dU dV x y : Int} {capacity : Edge E → G} {f b : List Int}
  {vs vs' : Vectors E G} {eV : G} {a : Arc E G} {es : List (Arc E G)} {p q m c p' q' m' c' : Nat}

theorem rank_lt_iff : rank p q m c < rank p' q' m' c' ↔
    p < p' ∨ p = p' ∧ (q < q' ∨ q = q' ∧ (m < m' ∨ m = m' ∧ c < c')) := by
  simp only [rank, Prod.Lex.toLex_lt_toLex]

omit [AddCommGroup G] in
theorem Sorted.mono {l l' : List Int} (sorted : Sorted vs l)
    (fewer : ∀ x y, Admissible vs' x y → Admissible vs x y) (sub : l'.Sublist l) : Sorted vs' l' :=
  (sorted.sublist sub).imp fun notAdmissible => mt (fewer _ _) notAdmissible

omit [AddCommGroup G] in
theorem Sorted.not_admissible {l l' : List Int} (sorted : Sorted vs (l.reverse ++ u :: l'))
    (mem : x ∈ l) : ¬Admissible vs u x :=
  (List.pairwise_append.mp sorted).2.2 x (List.mem_reverse.mpr mem) u List.mem_cons_self

theorem Discharging.mem (discharging : Discharging g s t capacity f b u dU dV eV es vs) :
    u ∈ g.nodes ∧ u ≠ s ∧ u ≠ t :=
  (discharging.listed.mem_iff u).mp (List.mem_append_right _ List.mem_cons_self)

theorem Discharging.discharged (discharging : Discharging g s t capacity f b u dU dV 0 es vs) :
    ∃ state, discharged f b u dU dV es vs = .ok state ∧ ∃ m,
      Ranked g s t capacity m state ∧ m < rank (potential g vs)
        (if dU = dV then b.length + 1 else f.length + b.length + 1) p q := by
  obtain ⟨memU, notS, notT⟩ := discharging.mem
  let vs' : Vectors E G := { vs with
    excess := vs.excess.put u 0
    current := vs.current.put u es }
  have ends : MaximumFlow.discharged f b u dU dV es vs =
      .ok ⟨if dU ≠ dV then .iterate [u] (f.reverse ++ b) else .iterate (u :: f) b, vs'⟩ := by
    rw [MaximumFlow.discharged,
      RwVector.set_of_within (within_nodes discharging.preflow.lengths.excess memU), ok_bind,
      RwVector.set_of_within (within_nodes discharging.preflow.lengths.current memU), ok_bind]
  have preflow : Preflow g s t capacity vs' vs'.excess.cell := by
    refine { discharging.preflow with
      lengths := { discharging.preflow.lengths with }
      current := fun x mem a member => ?_ }
    by_cases isU : x = u
    · subst isU
      rw [RwVector.put_cell_self] at member
      exact discharging.arcs a member
    · rw [RwVector.put_cell_of_ne isU] at member
      exact discharging.preflow.current x mem a member
  refine ⟨_, ends, ?_⟩
  by_cases same : dU = dV
  · obtain ⟨sorted, zero⟩ := discharging.still same
    rw [if_neg (not_not.mpr same), if_pos same]
    refine ⟨_, .iterate ⟨preflow, ?_, ?_, fun x mem => ?_⟩, ?_⟩
    · simpa using discharging.listed
    · rw [List.reverse_cons, List.append_assoc]
      exact sorted
    · by_cases isU : x = u
      · rw [isU]
        exact RwVector.put_cell_self
      · refine (RwVector.put_cell_of_ne isU).trans (zero x ?_)
        exact (List.mem_cons.mp mem).resolve_left isU
    · rw [rank_lt_iff]
      exact .inr ⟨rfl, .inl (Nat.lt_succ_self _)⟩
  · obtain ⟨sorted, none⟩ := discharging.lifted same
    rw [if_pos same, if_neg same]
    have perm : (f.reverse ++ u :: b).Perm ([u].reverse ++ (f.reverse ++ b)) := List.perm_middle
    refine ⟨_, .iterate ⟨preflow, ⟨perm.nodup_iff.mp discharging.listed.nodup, fun x => ?_⟩, ?_,
      fun x mem => ?_⟩, ?_⟩
    · rw [← perm.mem_iff]
      exact discharging.listed.mem_iff x
    · exact List.pairwise_cons.mpr ⟨fun x _ => none x, sorted⟩
    · rw [List.mem_singleton.mp mem]
      exact RwVector.put_cell_self
    · rw [rank_lt_iff]
      right
      refine ⟨rfl, .inl ?_⟩
      simp

theorem Pushed.admissible {value : Nat → G} {excess : RwVector G}
    (pushed : Pushed g s t capacity vs u a eV value excess)
    (down : vs.dist.cell u = vs.dist.cell a.target + 1)
    (admissible : Admissible { vs with value, excess } x y) : Admissible vs x y := by
  obtain ⟨residual, fall⟩ := admissible
  rcases pushed.residual x y residual with old | ⟨rfl, rfl⟩
  · exact ⟨old, fall⟩
  · dsimp only at fall
    omega

theorem Discharging.push {value : Nat → G} {excess : RwVector G} {eV' : G}
    (discharging : Discharging g s t capacity f b u dU dV eV (a :: es) vs)
    (room : vs.value a.flow < a.cap) (down : vs.dist.cell u = vs.dist.cell a.target + 1)
    (pushed : Pushed g s t capacity vs u a eV' value excess) :
    Discharging g s t capacity f b u dU dV eV' es { vs with value, excess } := by
  have mem := discharging.arcs a List.mem_cons_self
  constructor
  case preflow => exact pushed.preflow
  case listed => exact discharging.listed
  case height => exact discharging.height
  case arcs => exact fun a' member => discharging.arcs a' (List.mem_cons_of_mem a member)
  case still =>
    intro same
    obtain ⟨sorted, zero⟩ := discharging.still same
    refine ⟨sorted.mono (fun _ _ => pushed.admissible down) (List.Sublist.refl _),
      fun x member => ?_⟩
    rw [pushed.excess x ?_]
    · exact zero x member
    · rintro rfl
      exact sorted.not_admissible member ⟨⟨a, mem, rfl, room⟩, down⟩
  case lifted =>
    intro other
    obtain ⟨sorted, none⟩ := discharging.lifted other
    exact ⟨sorted.mono (fun _ _ => pushed.admissible down) (List.Sublist.refl _),
      fun x admissible => none x (pushed.admissible down admissible)⟩
  case le => exact discharging.le

omit [AddCommGroup G] [LinearOrder G] in
theorem potential_lt {d : Int} (mem : u ∈ g.nodes) (high : d < 2 * g.order)
    (up : vs.dist.cell u < d) :
    potential g { vs with dist := vs.dist.put u d } < potential g vs := by
  have here : (vs.dist.put u d).cell u = d := RwVector.put_cell_self
  apply Finset.sum_lt_sum
  · intro x _
    by_cases isU : x = u
    · subst isU
      rw [here]
      omega
    · dsimp only
      rw [RwVector.put_cell_of_ne isU]
  · refine ⟨u, List.mem_toFinset.mpr mem, ?_⟩
    rw [here]
    omega

theorem Discharging.lift {d : Int} (discharging : Discharging g s t capacity f b u dU dV eV es vs)
    (lifted : Lifted g s t capacity vs (Function.update vs.excess.cell u eV) u d) (up : dV < d) :
    Discharging g s t capacity f b u dU d eV (vs.neighbors.cell u)
      { vs with dist := vs.dist.put u d } := by
  have here : (vs.dist.put u d).cell u = d := RwVector.put_cell_self
  have lower := discharging.height
  have old {x y : Int} (notX : x ≠ u) (notY : y ≠ u)
      (admissible : Admissible { vs with dist := vs.dist.put u d } x y) : Admissible vs x y := by
    obtain ⟨residual, fall⟩ := admissible
    rw [RwVector.put_cell_of_ne notX, RwVector.put_cell_of_ne notY] at fall
    exact ⟨residual, fall⟩
  have none (x : Int) : ¬Admissible { vs with dist := vs.dist.put u d } x u := by
    rintro ⟨residual, fall⟩
    have gentle := discharging.preflow.gentle x u residual
    rw [here] at fall
    by_cases isU : x = u
    · rw [isU, here] at fall
      omega
    · rw [RwVector.put_cell_of_ne isU] at fall
      omega
  have sorted : Sorted vs (f.reverse ++ b) := by
    by_cases same : dU = dV
    · exact (discharging.still same).1.sublist
        ((List.Sublist.refl _).append (List.sublist_cons_self u b))
    · exact (discharging.lifted same).1
  have away (x : Int) (mem : x ∈ f.reverse ++ b) : x ≠ u := by
    have nodup := List.perm_middle.nodup_iff.mp discharging.listed.nodup
    rintro rfl
    exact (List.nodup_cons.mp nodup).1 mem
  constructor
  case preflow => exact lifted.preflow
  case listed => exact discharging.listed
  case height => exact here
  case arcs => exact fun _ => id
  case still =>
    intro same
    have before := discharging.le
    omega
  case lifted =>
    refine fun _ => ⟨sorted.imp_of_mem fun memX memY notAdmissible admissible => ?_, none⟩
    exact notAdmissible (old (away _ memY) (away _ memX) admissible)
  case le => exact discharging.le.trans up.le

omit [AddCommGroup G] in
theorem admissible_ok (within : vs.dist.Within a.target) : admissible vs dV a =
    .ok (decide (vs.value a.flow < a.cap ∧ dV = vs.dist.cell a.target + 1)) := by
  unfold admissible
  by_cases room : vs.value a.flow < a.cap
  · rw [if_pos room, RwVector.get_of_within within, ok_bind]
    simp [room]
  · rw [if_neg room]
    simp [room]

theorem ranked_iterate (iterating : Iterating g s t capacity f b vs) :
    TurnsTo turn (fun state => ∃ m' < rank (potential g vs) b.length 3 0,
      Ranked g s t capacity m' state) (Finished g s t capacity) ⟨.iterate f b, vs⟩ := by
  cases b with
  | nil =>
    refine .done rfl ⟨vs, rfl, iterating.preflow, fun x mem notS notT => ?_⟩
    have listed := (iterating.listed.mem_iff x).mpr ⟨mem, notS, notT⟩
    rw [List.append_nil, List.mem_reverse] at listed
    exact iterating.zero x listed
  | cons u b =>
    obtain ⟨memU, notS, notT⟩ :=
      (iterating.listed.mem_iff u).mp (List.mem_append_right _ List.mem_cons_self)
    have lengths := iterating.preflow.lengths
    have read := RwVector.get_of_within (within_nodes lengths.excess memU)
    by_cases zero : vs.excess.cell u = 0
    · have step : turn ⟨.iterate f (u :: b), vs⟩ = .ok (.next ⟨.iterate (u :: f) b, vs⟩) := by
        rw [turn, read, ok_bind, if_pos zero]
      refine .next step ⟨_, ?_, .iterate ⟨iterating.preflow, ?_, ?_, ?_⟩⟩
      · rw [rank_lt_iff]
        exact .inr ⟨rfl, .inl (Nat.lt_succ_self _)⟩
      · rw [List.reverse_cons, List.append_assoc]
        exact iterating.listed
      · rw [List.reverse_cons, List.append_assoc]
        exact iterating.sorted
      · exact List.forall_mem_cons.mpr ⟨zero, iterating.zero⟩
    · have step : turn ⟨.iterate f (u :: b), vs⟩ = .ok (.next ⟨.loop f b u (vs.dist.cell u)
          (vs.dist.cell u) (vs.excess.cell u) (vs.current.cell u), vs⟩) := by
        rw [turn, read, ok_bind, if_neg zero,
          RwVector.get_of_within (within_nodes lengths.dist memU), ok_bind,
          RwVector.get_of_within (within_nodes lengths.current memU), ok_bind]
      have pos := lt_of_le_of_ne (iterating.preflow.nonneg u memU notS) (Ne.symm zero)
      refine .next step ⟨_, ?_, .loop false ⟨?_, iterating.listed, rfl,
        iterating.preflow.current u memU, ?_, ?_, Int.le_refl _⟩ pos (by simp)⟩
      · rw [rank_lt_iff, if_pos rfl]
        exact .inr ⟨rfl, .inr ⟨rfl, .inl (by decide)⟩⟩
      · rw [Function.update_eq_self]
        exact iterating.preflow
      · exact fun _ => ⟨iterating.sorted, iterating.zero⟩
      · exact fun other => (other rfl).elim

variable [IsOrderedAddMonoid G]

theorem ranked_arc {complete : Bool}
    (discharging : Discharging g s t capacity f b u dU dV eV (a :: es) vs) (pos : 0 < eV)
    (all : complete → Complete vs u (a :: es)) :
    TurnsTo turn (fun state => ∃ m' < rank (potential g vs)
      (if dU = dV then b.length + 1 else f.length + b.length + 1) (if complete then 1 else 2)
        (a :: es).length, Ranked g s t capacity m' state) (Finished g s t capacity)
          ⟨.loop f b u dU dV eV (a :: es), vs⟩ := by
  obtain ⟨memU, notS, _⟩ := discharging.mem
  have mem := discharging.arcs a List.mem_cons_self
  have tests := @admissible_ok E G _ dV vs a
    (within_nodes discharging.preflow.lengths.dist (discharging.preflow.target_mem mem).2)
  have fewer : rank (potential g vs) (if dU = dV then b.length + 1 else f.length + b.length + 1)
      (if complete then 1 else 2) es.length < rank (potential g vs)
        (if dU = dV then b.length + 1 else f.length + b.length + 1) (if complete then 1 else 2)
          (a :: es).length := by
    rw [rank_lt_iff]
    exact .inr ⟨rfl, .inr ⟨rfl, .inr ⟨rfl, Nat.lt_succ_self _⟩⟩⟩
  by_cases isAdmissible : vs.value a.flow < a.cap ∧ dV = vs.dist.cell a.target + 1
  · obtain ⟨room, isDown⟩ := isAdmissible
    have down := discharging.height.trans isDown
    obtain ⟨eV', value, excess, pushes, pushed⟩ :=
      push_spec discharging.preflow mem notS room down pos
    have discharging' := discharging.push room down pushed
    have unfolded : turn ⟨.loop f b u dU dV eV (a :: es), vs⟩ = (if eV' = 0 then
        discharged f b u dU dV es { vs with value, excess } >>= fun state => .ok (.next state)
        else .ok (.next ⟨.loop f b u dU dV eV' es, { vs with value, excess }⟩)) := by
      rw [turn, tests, ok_bind, if_pos (decide_eq_true ⟨room, isDown⟩), pushes, ok_bind]
    by_cases zero : eV' = 0
    · rw [zero] at discharging'
      obtain ⟨state, ends, m, ranked, less⟩ := @Discharging.discharged E G _ _ g s t u dU dV capacity
        f b _ es (if complete then 1 else 2) (a :: es).length discharging'
      rw [if_pos zero, ends, ok_bind] at unfolded
      exact .next unfolded ⟨m, less, ranked⟩
    · rw [if_neg zero] at unfolded
      have nonneg := discharging'.preflow.nonneg u memU notS
      rw [Function.update_self] at nonneg
      refine .next unfolded ⟨_, fewer, .loop complete discharging'
        (lt_of_le_of_ne nonneg (Ne.symm zero)) fun isComplete c memC roomC downC => ?_⟩
      by_cases isA : c = a
      · have full := pushed.spent.resolve_left zero
        subst isA
        exact (roomC.ne full).elim
      · have same : value c.flow = vs.value c.flow := pushed.others c memC isA
        dsimp only at roomC
        rw [same] at roomC
        exact (List.mem_cons.mp (all isComplete c memC roomC downC)).resolve_left isA
  · have step : turn ⟨.loop f b u dU dV eV (a :: es), vs⟩ =
        .ok (.next ⟨.loop f b u dU dV eV es, vs⟩) := by
      rw [turn, tests, ok_bind, if_neg (mt of_decide_eq_true isAdmissible)]
    refine .next step ⟨_, fewer, .loop complete { discharging with
      arcs := fun c member => discharging.arcs c (List.mem_cons_of_mem a member) } pos
      fun isComplete c memC roomC downC => ?_⟩
    refine (List.mem_cons.mp (all isComplete c memC roomC downC)).resolve_left ?_
    rintro rfl
    rw [discharging.height] at downC
    exact isAdmissible ⟨roomC, downC⟩

theorem ranked_lift {complete : Bool}
    (discharging : Discharging g s t capacity f b u dU dV eV [] vs) (pos : 0 < eV)
    (all : complete → Complete vs u []) (memS : s ∈ g.nodes)
    (small : g.capacity ≤ maximumVectorLength) :
    TurnsTo turn (fun state => ∃ m' < rank (potential g vs)
      (if dU = dV then b.length + 1 else f.length + b.length + 1) (if complete then 1 else 2) 0,
        Ranked g s t capacity m' state) (Finished g s t capacity) ⟨.loop f b u dU dV eV [], vs⟩ := by
  obtain ⟨memU, notS, notT⟩ := discharging.mem
  obtain ⟨d, lifts, lifted⟩ := lift_spec discharging.preflow memU memS notS notT
    (by rw [Function.update_self]; exact pos) small
  have step : turn ⟨.loop f b u dU dV eV [], vs⟩ = .ok (.next
      ⟨.loop f b u dU d eV (vs.neighbors.cell u), { vs with dist := vs.dist.put u d }⟩) := by
    rw [turn, lifts, ok_bind]
    dsimp only
    rw [RwVector.get_of_within (within_nodes discharging.preflow.lengths.neighbors memU), ok_bind]
  have up := lifted.le
  rw [discharging.height] at up
  by_cases same : d = dV
  · -- An arc with room was left behind, so that not all arcs can have been gone through.
    obtain ⟨a, mem, room, isD⟩ := lifted.least
    have incomplete : complete = false := by
      rw [← Bool.not_eq_true]
      intro isComplete
      rw [same, ← discharging.height] at isD
      exact List.not_mem_nil (all isComplete a mem room isD)
    have unchanged : vs.dist.put u d = vs.dist := by
      rw [RwVector.put, same, ← discharging.height, Function.update_eq_self]
    rw [unchanged, same] at step
    refine .next step ⟨_, ?_, .loop true { discharging with arcs := fun _ => id } pos
      fun _ a mem _ _ => mem⟩
    rw [rank_lt_iff, incomplete]
    exact .inr ⟨rfl, .inr ⟨rfl, .inl (by decide)⟩⟩
  · have higher : dV < d := lt_of_le_of_ne up (Ne.symm same)
    have discharging' := discharging.lift lifted higher
    have here : (vs.dist.put u d).cell u = d := RwVector.put_cell_self
    refine .next step ⟨_, ?_, .loop true discharging' pos fun _ a mem _ _ => mem⟩
    rw [rank_lt_iff]
    left
    apply potential_lt memU
    · have high := discharging'.preflow.high u memU
      rwa [here] at high
    · rw [discharging.height]
      exact higher

theorem ranked_turns (memS : s ∈ g.nodes) (small : g.capacity ≤ maximumVectorLength) (m : Rank)
    (state : State E G) (ranked : Ranked g s t capacity m state) :
    TurnsTo turn (fun state' => ∃ m' < m, Ranked g s t capacity m' state')
      (Finished g s t capacity) state := by
  cases ranked with
  | iterate iterating => exact ranked_iterate iterating
  | @loop _ _ _ _ _ _ es _ complete discharging pos all =>
    cases es with
    | nil => exact ranked_lift discharging pos all memS small
    | cons a es => exact ranked_arc discharging pos all

end Turns

end Mythryl.Graph.MaximumFlow
