import Mythryl.Graph.AugmentingRuns
import Mythryl.Matchings

/-! # The matching is a maximum one -/

namespace Mythryl.Graph.BipartiteMatching
open Loop Matchings

variable {E X : Type}

section Greedy

variable {g : Digraph E} {side : Int → Bool} {mate : RwVector Int} {x y i : Int}
  {es : List (Edge E)} {us : List Int}

theorem Proper.rematch (proper : Proper g mate) (adjacent : Adjacent g x y) (other : x ≠ y)
    (noneX : mate.cell x = -1) (noneY : mate.cell y = -1) : Proper g (rematched mate x y) := by
  refine ⟨proper.length, fun z mem married => ?_⟩
  by_cases isY : z = y
  · rw [isY]
    refine ⟨?_, ?_, ?_⟩
    · rw [rematched_right]
      exact adjacent.mem.1
    · rw [rematched_right, rematched_left other]
    · rw [rematched_right]
      exact adjacent.symm
  by_cases isX : z = x
  · rw [isX]
    refine ⟨?_, ?_, ?_⟩
    · rw [rematched_left other]
      exact adjacent.mem.2
    · rw [rematched_left other, rematched_right]
    · rw [rematched_left other]
      exact adjacent
  rw [rematched_of_ne isX isY] at married
  have pair := proper.paired z mem married
  have notX : mate.cell z ≠ x := by
    intro same
    have back := pair.back
    rw [same, noneX] at back
    exact ne_none mem back.symm
  have notY : mate.cell z ≠ y := by
    intro same
    have back := pair.back
    rw [same, noneY] at back
    exact ne_none mem back.symm
  refine ⟨?_, ?_, ?_⟩
  · rw [rematched_of_ne isX isY]
    exact pair.mem
  · rw [rematched_of_ne isX isY, rematched_of_ne notX notY]
    exact pair.back
  · rw [rematched_of_ne isX isY]
    exact pair.adjacent

def Touched (mate : RwVector Int) (es : List (Edge E)) : Prop :=
  ∀ e ∈ es, mate.cell e.source ≠ -1 ∨ mate.cell e.target ≠ -1

def Grows (mate mate' : RwVector Int) : Prop := ∀ x, mate.cell x ≠ -1 → mate'.cell x ≠ -1

theorem Touched.grow {mate' : RwVector Int} (touched : Touched mate es) (grows : Grows mate mate') :
    Touched mate' es :=
  fun e mem => (touched e mem).imp (grows _) (grows _)

theorem marryFirst_spec (bipartite : Bipartite g side) (proper : Proper g mate)
    (none : mate.cell i = -1) (edges : ∀ e ∈ es, e ∈ g.outEdges i) :
    ∃ mate', marryFirst es mate = .ok mate' ∧ Proper g mate' ∧ Grows mate mate' ∧
      Touched mate' es := by
  induction es with
  | nil => exact ⟨mate, rfl, proper, fun _ => id, by simp [Touched]⟩
  | cons e es ih =>
    obtain ⟨here, later⟩ := List.forall_mem_cons.mp edges
    obtain ⟨rfl, mem⟩ := Digraph.mem_outEdges.mp here
    have adjacent : Adjacent g e.source e.target := ⟨e, mem, .inl ⟨rfl, rfl⟩⟩
    have other : e.source ≠ e.target := fun same => bipartite e mem (congrArg side same)
    by_cases married : mate.cell e.target ≠ -1
    · obtain ⟨mate', marries, proper', grows, touched⟩ := ih later
      refine ⟨mate', ?_, proper', grows, List.forall_mem_cons.mpr ⟨.inr (grows _ married), touched⟩⟩
      rw [marryFirst, if_neg other, proper.married adjacent.mem.2, ok_bind,
        if_pos (decide_eq_true married)]
      exact marries
    · refine ⟨rematched mate e.source e.target, ?_, proper.rematch adjacent other none
        (not_not.mp married), fun x marriedX => ?_, fun e' member => .inl ?_⟩
      · rw [marryFirst, if_neg other, proper.married adjacent.mem.2, ok_bind,
          if_neg (mt of_decide_eq_true married),
          match_ok proper.length adjacent.mem.1 adjacent.mem.2]
        rfl
      · have notSource : x ≠ e.source := fun same => marriedX (same ▸ none)
        have notTarget : x ≠ e.target := fun same => married (same ▸ marriedX)
        rw [rematched_of_ne notSource notTarget]
        exact marriedX
      · rw [g.outEdges_source _ e' (edges e' member), rematched_left other]
        exact ne_none adjacent.mem.2

theorem greedy_spec (bipartite : Bipartite g side) (proper : Proper g mate)
    (nodes : ∀ u ∈ us, u ∈ g.nodes) : ∃ mate',
    us.foldlM (fun mate i => do
      if ← married mate i then .ok mate else marryFirst (g.outEdges i) mate) mate = .ok mate' ∧
    Proper g mate' ∧ Grows mate mate' ∧ ∀ u ∈ us, Touched mate' (g.outEdges u) := by
  induction us generalizing mate with
  | nil => exact ⟨mate, rfl, proper, fun _ => id, by simp⟩
  | cons u us ih =>
    obtain ⟨mem, later⟩ := List.forall_mem_cons.mp nodes
    obtain ⟨mate₁, first, proper₁, grows₁, touched₁⟩ : ∃ mate₁, (married mate u >>= fun isMarried =>
        if isMarried then .ok mate else marryFirst (g.outEdges u) mate) = .ok mate₁ ∧
        Proper g mate₁ ∧ Grows mate mate₁ ∧ Touched mate₁ (g.outEdges u) := by
      rw [proper.married mem, ok_bind]
      by_cases isMarried : mate.cell u ≠ -1
      · refine ⟨mate, if_pos (decide_eq_true isMarried), proper, fun _ => id, fun e member => ?_⟩
        rw [g.outEdges_source u e member]
        exact .inl isMarried
      · rw [if_neg (mt of_decide_eq_true isMarried)]
        exact marryFirst_spec bipartite proper (not_not.mp isMarried) fun _ => id
    obtain ⟨mate₂, rest, proper₂, grows₂, touched₂⟩ := ih proper₁ later
    refine ⟨mate₂, ?_, proper₂, fun x => grows₂ x ∘ grows₁ x,
      List.forall_mem_cons.mpr ⟨touched₁.grow grows₂, touched₂⟩⟩
    rw [List.foldlM_cons]
    exact (congrArg (· >>= _) first).trans rest

theorem computeInitialMatching_spec (bipartite : Bipartite g side) :
    ∃ mate, computeInitialMatching g = .ok mate ∧ Proper g mate ∧ Maximal g mate := by
  have blank : Proper g (RwVector.makeRwVector g.capacity (-1)) :=
    ⟨rfl, fun x _ married => (married rfl).elim⟩
  obtain ⟨mate, computes, proper, _, touched⟩ := greedy_spec bipartite blank fun _ => id
  refine ⟨mate, computes, proper, ?_⟩
  rintro x y ⟨e, mem, ⟨rfl, rfl⟩ | ⟨rfl, rfl⟩⟩
  · exact touched _ (Digraph.source_mem mem) e (Digraph.mem_edges.mp mem)
  · exact (touched _ (Digraph.source_mem mem) e (Digraph.mem_edges.mp mem)).symm

theorem unmarriedNodes_eq (proper : Proper g mate) (nodes : ∀ u ∈ us, u ∈ g.nodes) :
    unmarriedNodes mate us = .ok (us.filter fun u => mate.cell u = -1) := by
  induction us with
  | nil => rfl
  | cons u us ih =>
    obtain ⟨mem, later⟩ := List.forall_mem_cons.mp nodes
    rw [unmarriedNodes, ih later, ok_bind, proper.married mem, ok_bind]
    by_cases none : mate.cell u = -1
    · simp [none]
    · simp [none]

theorem start_spec (bipartite : Bipartite g side) : ∃ unmarried state rank,
    start g = .ok (unmarried, state) ∧ (∀ u ∈ unmarried, u ∈ g.nodes) ∧
      Ranked g side unmarried rank state := by
  obtain ⟨mate, computes, proper, maximal⟩ := computeInitialMatching_spec bipartite
  let unmarried := g.nodes.filter fun u => mate.cell u = -1
  let blank := RwVector.makeRwVector g.capacity (-1)
  have none (x : Int) (mem : x ∈ g.nodes) (isNone : mate.cell x = -1) : x ∈ unmarried :=
    List.mem_filter.mpr ⟨mem, decide_eq_true isNone⟩
  have nodes (u : Int) (mem : u ∈ unmarried) : u ∈ g.nodes := (List.mem_filter.mp mem).1
  have searching : Searching g side 0 ⟨mate, blank, blank⟩ ∅ ∅ ∅ fun _ _ => False :=
    searching_start proper maximal rfl rfl fun _ => show (-1 : Int) < 0 by decide
  refine ⟨unmarried, ⟨0, .bfsRoots unmarried, ⟨mate, blank, blank⟩⟩, _, ?_, nodes,
    .bfsRoots searching ⟨fun x mem isNone => .inr (none x mem isNone), none, nodes⟩⟩
  rw [start, computes, ok_bind, unmarriedNodes_eq proper fun _ => id, ok_bind]

end Greedy

section Fold

variable {g : Digraph E} {side : Int → Bool} {mate : RwVector Int} {x y i : Int}
  {es chosen : List (Edge E)} {e : Edge E} {f : Edge E → X → X} {k : Nat} {m : X}

def unmatched (mate : RwVector Int) (x y : Int) : RwVector Int := (mate.put x (-1)).put y (-1)

theorem unmatched_cell :
    (unmatched mate x y).cell i = if i = x ∨ i = y then -1 else mate.cell i := by
  unfold unmatched
  by_cases isY : i = y
  · simp [isY]
  · rw [RwVector.put_cell_of_ne isY]
    by_cases isX : i = x
    · simp [isX]
    · rw [RwVector.put_cell_of_ne isX]
      simp [isX, isY]

theorem Proper.unmatch (proper : Proper g mate) (mem : x ∈ g.nodes) (pair : mate.cell x = y)
    (memY : y ∈ g.nodes) : Proper g (unmatched mate x y) := by
  have back : mate.cell y = x := by
    have paired := proper.paired x mem (by rw [pair]; exact ne_none memY)
    rw [← pair, paired.back]
  refine ⟨proper.length, fun z memZ married => ?_⟩
  rw [unmatched_cell] at married
  split at married
  · exact (married rfl).elim
  next other =>
    obtain ⟨mate_mem, mate_back, adjacent⟩ := proper.paired z memZ married
    have mateOther : ¬(mate.cell z = x ∨ mate.cell z = y) := by
      rintro (same | same)
      · rw [same, pair] at mate_back
        exact other (.inr mate_back.symm)
      · rw [same, back] at mate_back
        exact other (.inl mate_back.symm)
    have cell : (unmatched mate x y).cell z = mate.cell z := by rw [unmatched_cell, if_neg other]
    refine ⟨?_, ?_, ?_⟩
    · rw [cell]
      exact mate_mem
    · rw [cell, unmatched_cell, if_neg mateOther, mate_back]
    · rw [cell]
      exact adjacent

theorem cell_of_unmatched (some : (unmatched mate x y).cell i ≠ -1) :
    (i ≠ x ∧ i ≠ y) ∧ (unmatched mate x y).cell i = mate.cell i := by
  rw [unmatched_cell] at some ⊢
  split at some
  · exact (some rfl).elim
  next other => exact ⟨not_or.mp other, if_neg other⟩

structure Chosen (mate : RwVector Int) (es chosen : List (Edge E)) : Prop where
  sublist : chosen.Sublist es
  apart : chosen.Pairwise (Apart Edge.source Edge.target)
  pairs : ∀ e ∈ chosen, mate.cell e.source = e.target
  all : ∀ e ∈ es, mate.cell e.source = e.target → ∃ c ∈ chosen,
    c.source = e.source ∧ c.target = e.target ∨ c.source = e.target ∧ c.target = e.source

theorem Chosen.skip (isChosen : Chosen mate es chosen) (other : mate.cell e.source ≠ e.target) :
    Chosen mate (e :: es) chosen := by
  refine ⟨isChosen.sublist.cons e, isChosen.apart, isChosen.pairs, fun d mem pair => ?_⟩
  rcases List.mem_cons.mp mem with rfl | later
  · exact (other pair).elim
  · exact isChosen.all d later pair

theorem Chosen.choose (isChosen : Chosen (unmatched mate e.source e.target) es chosen)
    (proper : Proper g mate) (edges : ∀ d ∈ e :: es, d ∈ g.edges)
    (pair : mate.cell e.source = e.target) : Chosen mate (e :: es) (e :: chosen) := by
  obtain ⟨here, later⟩ := List.forall_mem_cons.mp edges
  have memS := Digraph.source_mem here
  have memT := Digraph.target_mem here
  have back : mate.cell e.target = e.source := by
    have paired := proper.paired e.source memS (by rw [pair]; exact ne_none memT)
    rw [← pair, paired.back]
  have laterPair (d : Edge E) (mem : d ∈ chosen) :
      (d.source ≠ e.source ∧ d.source ≠ e.target) ∧ mate.cell d.source = d.target := by
    have isPair := isChosen.pairs d mem
    have memD := Digraph.target_mem (later d (isChosen.sublist.subset mem))
    obtain ⟨away, cell⟩ := cell_of_unmatched (by rw [isPair]; exact ne_none memD)
    exact ⟨away, cell.symm.trans isPair⟩
  constructor
  case sublist => exact isChosen.sublist.cons_cons e
  case apart =>
    refine List.pairwise_cons.mpr ⟨fun d mem => ?_, isChosen.apart⟩
    obtain ⟨⟨notSource, notTarget⟩, isPair⟩ := laterPair d mem
    have memD := later d (isChosen.sublist.subset mem)
    have paired := proper.paired d.source (Digraph.source_mem memD)
      (by rw [isPair]; exact ne_none (Digraph.target_mem memD))
    have backD : mate.cell d.target = d.source := by rw [← isPair, paired.back]
    refine ⟨notSource.symm, fun same => ?_, notTarget.symm, fun same => ?_⟩
    · rw [← same, pair] at backD
      exact notTarget backD.symm
    · rw [← same, back] at backD
      exact notSource backD.symm
  case pairs => exact List.forall_mem_cons.mpr ⟨pair, fun d mem => (laterPair d mem).2⟩
  case all =>
    intro d mem isPair
    by_cases isSource : d.source = e.source
    · refine ⟨e, List.mem_cons_self, .inl ⟨isSource.symm, ?_⟩⟩
      rw [← pair, ← isSource, isPair]
    by_cases isTarget : d.source = e.target
    · refine ⟨e, List.mem_cons_self, .inr ⟨?_, isTarget.symm⟩⟩
      rw [← back, ← isTarget, isPair]
    · rcases List.mem_cons.mp mem with rfl | laterD
      · exact (isSource rfl).elim
      · have still : (unmatched mate e.source e.target).cell d.source = d.target := by
          rw [unmatched_cell, if_neg (not_or.mpr ⟨isSource, isTarget⟩), isPair]
        obtain ⟨c, memC, ends⟩ := isChosen.all d laterD still
        exact ⟨c, List.mem_cons_of_mem e memC, ends⟩

theorem foldEdges_spec (proper : Proper g mate) (edges : ∀ e ∈ es, e ∈ g.edges) :
    ∃ chosen, foldEdges f es mate k m =
      .ok (chosen.foldl (fun m e => f e m) m, k + chosen.length) ∧ Chosen mate es chosen := by
  induction es generalizing mate k m with
  | nil => exact ⟨[], rfl, .slnil, .nil, by simp, by simp⟩
  | cons e es ih =>
    obtain ⟨here, later⟩ := List.forall_mem_cons.mp edges
    have memS := Digraph.source_mem here
    have memT := Digraph.target_mem here
    have read : mate.get e.source = .ok (mate.cell e.source) :=
      RwVector.get_of_within (within_of_length proper.length memS)
    by_cases pair : mate.cell e.source = e.target
    · obtain ⟨chosen, folds, isChosen⟩ := @ih (unmatched mate e.source e.target) (k + 1) (f e m)
        (proper.unmatch memS pair memT) later
      refine ⟨e :: chosen, ?_, isChosen.choose proper edges pair⟩
      have withinT : (mate.put e.source (-1)).Within e.target :=
        within_of_length proper.length memT
      rw [foldEdges, read, ok_bind, if_pos pair,
        RwVector.set_of_within (within_of_length proper.length memS), ok_bind,
        RwVector.set_of_within withinT, ok_bind]
      refine folds.trans ?_
      rw [List.foldl_cons, List.length_cons, Nat.add_assoc, Nat.add_comm 1]
    · obtain ⟨chosen, folds, isChosen⟩ := @ih mate k m proper later
      refine ⟨chosen, ?_, isChosen.skip pair⟩
      rw [foldEdges, read, ok_bind, if_neg pair]
      exact folds

end Fold

section Maximum

variable {g : Digraph E} {side : Int → Bool} {vectors : Vectors} {phase : Int} {R O : Set Int}
  {chosen es : List (Edge E)} {x y : Int}

def Cover (g : Digraph E) (side : Int → Bool) (mate : RwVector Int) (O : Set Int) (x : Int) :
    Prop :=
  x ∈ g.nodes ∧ mate.cell x ≠ -1 ∧ (x ∈ O ∨ side x ∧ x ∉ O ∧ mate.cell x ∉ O)

theorem covers (bipartite : Bipartite g side)
    (searching : Searching g side phase vectors R O ∅ fun _ _ => False)
    (rooted : ∀ x ∈ g.nodes, vectors.mate.cell x = -1 → x ∈ R) {e : Edge E} (mem : e ∈ g.edges) :
    Covers Edge.source Edge.target (Cover g side vectors.mate O) e := by
  have adjacent : Adjacent g e.source e.target := ⟨e, mem, .inl ⟨rfl, rfl⟩⟩
  have odd {x y : Int} (adjacent : Adjacent g x y) (even : Even R O vectors.mate x) :
      Cover g side vectors.mate O y := by
    rcases searching.closed x adjacent.mem.1 even y adjacent with isOdd | waits | isDue
    · exact ⟨adjacent.mem.2, (searching.odd y isOdd).2.1, .inl isOdd⟩
    · exact waits.elim
    · exact isDue.elim
  by_cases evenS : Even R O vectors.mate e.source
  · exact .inr (odd adjacent evenS)
  by_cases evenT : Even R O vectors.mate e.target
  · exact .inl (odd adjacent.symm evenT)
  have cover {x : Int} (mem : x ∈ g.nodes) (notEven : ¬Even R O vectors.mate x) (isSide : side x) :
      Cover g side vectors.mate O x := by
    obtain ⟨notRoot, mateNotOdd⟩ := not_or.mp notEven
    refine ⟨mem, mt (rooted x mem) notRoot, ?_⟩
    by_cases isOdd : x ∈ O
    · exact .inl isOdd
    · exact .inr ⟨isSide, isOdd, mateNotOdd⟩
  by_cases sideS : side e.source
  · exact .inl (cover adjacent.mem.1 evenS sideS)
  · have sideT : side e.target := by
      have different := bipartite.ne adjacent
      revert different sideS
      cases side e.source <;> cases side e.target <;> simp
    exact .inr (cover adjacent.mem.2 evenT sideT)

def representative (side : Int → Bool) (mate : RwVector Int) (x : Int) : Int :=
  if side x then x else mate.cell x

theorem representative_inj (searching : Searching g side phase vectors R O ∅ fun _ _ => False)
    (coverX : Cover g side vectors.mate O x) (coverY : Cover g side vectors.mate O y)
    (same : representative side vectors.mate x = representative side vectors.mate y) : x = y := by
  have oneSide {x y : Int} (coverX : Cover g side vectors.mate O x)
      (coverY : Cover g side vectors.mate O y) (other : ¬side y)
      (mate : x = vectors.mate.cell y) : x = y := by
    obtain ⟨memY, marriedY, oddY | ⟨isSide, _⟩⟩ := coverY
    · obtain ⟨_, _, oddX | ⟨_, _, notOdd⟩⟩ := coverX
      · rw [mate] at oddX
        exact ((searching.odd y oddY).2.2 oddX).elim
      · rw [mate, (searching.proper.paired y memY marriedY).back] at notOdd
        exact (notOdd oddY).elim
    · exact (other isSide).elim
  unfold representative at same
  by_cases sideX : side x
  · by_cases sideY : side y
    · rwa [if_pos sideX, if_pos sideY] at same
    · rw [if_pos sideX, if_neg sideY] at same
      exact oneSide coverX coverY sideY same
  · by_cases sideY : side y
    · rw [if_neg sideX, if_pos sideY] at same
      exact (oneSide coverY coverX sideX same.symm).symm
    · rw [if_neg sideX, if_neg sideY] at same
      rw [← (searching.proper.paired x coverX.1 coverX.2.1).back, same,
        (searching.proper.paired y coverY.1 coverY.2.1).back]

theorem Chosen.mem_representatives (isChosen : Chosen vectors.mate g.edges chosen)
    (bipartite : Bipartite g side) (proper : Proper g vectors.mate) (mem : x ∈ g.nodes)
    (married : vectors.mate.cell x ≠ -1) : representative side vectors.mate x ∈
      chosen.map fun e => representative side vectors.mate e.source := by
  obtain ⟨_, back, adjacent⟩ := proper.paired x mem married
  have different := bipartite.ne adjacent
  have shared : representative side vectors.mate (vectors.mate.cell x) =
      representative side vectors.mate x := by
    unfold representative
    rw [back]
    revert different
    cases side x <;> cases side (vectors.mate.cell x) <;> simp
  have ends {e : Edge E} (member : e ∈ chosen) (isEnd : e.source = x ∨ e.source = vectors.mate.cell x) :
      representative side vectors.mate x ∈
        chosen.map fun e => representative side vectors.mate e.source := by
    refine List.mem_map.mpr ⟨e, member, ?_⟩
    rcases isEnd with source | source
    · rw [source]
    · rw [source, shared]
  obtain ⟨e, memE, ⟨source, target⟩ | ⟨source, target⟩⟩ := adjacent
  · obtain ⟨c, memC, ⟨same, _⟩ | ⟨same, _⟩⟩ := isChosen.all e memE (by rw [source, target])
    · exact ends memC (.inl (same.trans source))
    · exact ends memC (.inr (same.trans target))
  · obtain ⟨c, memC, ⟨same, _⟩ | ⟨same, _⟩⟩ := isChosen.all e memE (by rw [source, target, back])
    · exact ends memC (.inr (same.trans source))
    · exact ends memC (.inl (same.trans target))

theorem Chosen.length_le (isChosen : Chosen vectors.mate g.edges chosen)
    (bipartite : Bipartite g side)
    (searching : Searching g side phase vectors R O ∅ fun _ _ => False)
    (rooted : ∀ x ∈ g.nodes, vectors.mate.cell x = -1 → x ∈ R) (edges : ∀ e ∈ es, e ∈ g.edges)
    (apart : es.Pairwise (Apart Edge.source Edge.target)) : es.length ≤ chosen.length := by
  let marks := (chosen.map fun e => representative side vectors.mate e.source).toFinset
  calc es.length ≤ marks.card := by
        apply length_le_of_cover apart fun e mem => covers bipartite searching rooted (edges e mem)
        · intro x cover
          exact List.mem_toFinset.mpr (isChosen.mem_representatives bipartite searching.proper
            cover.1 cover.2.1)
        · intro x y coverX coverY
          exact representative_inj searching coverX coverY
    _ ≤ chosen.length := by
        simpa using List.toFinset_card_le (chosen.map fun e =>
          representative side vectors.mate e.source)

end Maximum

/-- `matching` ends without an error: the function has been folded over edges no two of which share
a node, as many as any such edges of the graph can be. -/
theorem matching_maximum (g : Digraph E) (side : Int → Bool) (f : Edge E → X → X) (x : X)
    (bipartite : Bipartite g side) : ∃ chosen : List (Edge E),
    Matching g f x (.ok (chosen.foldl (fun m e => f e m) x, chosen.length)) ∧
      chosen.Sublist g.edges ∧ chosen.Pairwise (Apart Edge.source Edge.target) ∧
      ∀ es : List (Edge E), (∀ e ∈ es, e ∈ g.edges) →
        es.Pairwise (Apart Edge.source Edge.target) → es.length ≤ chosen.length := by
  obtain ⟨unmarried, state, rank, starts, nodes, ranked⟩ := start_spec bipartite
  obtain ⟨searched, ends, vectors, phase, R, O, rfl, searching, rooted⟩ :=
    ends_of_ranks (ranked_turns bipartite nodes) ranked
  obtain ⟨chosen, folds, isChosen⟩ := foldEdges_spec (f := f) (k := 0) (m := x) searching.proper
    fun e (mem : e ∈ g.edges) => mem
  rw [Nat.zero_add] at folds
  refine ⟨chosen, ?_, isChosen.sublist, isChosen.apart, fun es edges apart =>
    isChosen.length_le bipartite searching rooted edges apart⟩
  rw [Matching, starts]
  exact ⟨_, ends, folds.symm⟩

theorem matching_opposite : ∃ chosen : List (Edge Unit),
    Matching opposite (fun _ n => n + 1) 0
      (.ok (chosen.foldl (fun n e => (fun _ n => n + 1) e n) 0, chosen.length)) ∧
      chosen.Sublist opposite.edges ∧ chosen.Pairwise (Apart Edge.source Edge.target) ∧
      ∀ es : List (Edge Unit), (∀ e ∈ es, e ∈ opposite.edges) →
        es.Pairwise (Apart Edge.source Edge.target) → es.length ≤ chosen.length :=
  matching_maximum opposite (fun u => u == 0) (fun _ n => n + 1) 0 (by unfold Bipartite; decide)

end Mythryl.Graph.BipartiteMatching
