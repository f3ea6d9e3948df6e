import Mythryl.Graph.OopDigraph
import Mythryl.Loop

/-!
# Bipartite matching

`bipartite_matching`: a greedy matching, then augmenting paths by breadth-first search from the
unmarried nodes, one path a phase.
-/

namespace Mythryl.Graph.BipartiteMatching
open Loop

variable {E X : Type}

structure Vectors where
  mate : RwVector Int
  visited : RwVector Int
  prior : RwVector Int

inductive Search
  | bfsRoots (roots : List Int)
  | bfs (l r roots : List Int)
  | bfsOdd (u : Int) (vs l r roots : List Int)
  | bfsEven (u : Int) (vs l r roots : List Int)
  | path (u : Int)

structure State where
  phase : Int
  search : Search
  vectors : Vectors

def married (mate : RwVector Int) (i : Int) : Except Raised Bool := do .ok ((← mate.get i) ≥ 0)

def match' (mate : RwVector Int) (i j : Int) : Except Raised (RwVector Int) := do
  (← mate.set i j).set j i

def marryFirst : List (Edge E) → RwVector Int → Except Raised (RwVector Int)
  | [], mate => .ok mate
  | e :: es, mate => do
      if e.source = e.target then marryFirst es mate
      else if ← married mate e.target then marryFirst es mate
      else match' mate e.source e.target

def computeInitialMatching (g : Digraph E) : Except Raised (RwVector Int) :=
  g.nodes.foldlM (fun mate i => do
    if ← married mate i then .ok mate else marryFirst (g.outEdges i) mate)
    (RwVector.makeRwVector g.capacity (-1))

def neighbors (g : Digraph E) (u : Int) : List Int := g.next u ++ g.prior u

def marked (vectors : Vectors) (phase u : Int) : Except Raised Bool := do
  .ok ((← vectors.visited.get u) = phase)

def mark (vectors : Vectors) (phase u : Int) : Except Raised Vectors := do
  .ok { vectors with visited := ← vectors.visited.set u phase }

def edge (vectors : Vectors) (u v : Int) : Except Raised Vectors := do
  .ok { vectors with prior := ← vectors.prior.set v u }

def turn (g : Digraph E) (unmarried : List Int) : State → Except Raised (Turn State Vectors)
  | ⟨_, .bfsRoots [], vectors⟩ => .ok (.done vectors)
  | ⟨phase, .bfsRoots (r :: roots), vectors⟩ => do
      if ← marked vectors phase r then .ok (.next ⟨phase, .bfsRoots roots, vectors⟩)
      else if ← married vectors.mate r then .ok (.next ⟨phase, .bfsRoots roots, vectors⟩)
      else
        let vectors ← mark vectors phase r
        .ok (.next ⟨phase, .bfsEven r (neighbors g r) [] [] roots, vectors⟩)
  | ⟨phase, .bfs [] [] roots, vectors⟩ => .ok (.next ⟨phase, .bfsRoots roots, vectors⟩)
  | ⟨phase, .bfs [] r roots, vectors⟩ => .ok (.next ⟨phase, .bfs r.reverse [] roots, vectors⟩)
  | ⟨phase, .bfs (u :: l) r roots, vectors⟩ =>
      .ok (.next ⟨phase, .bfsOdd u (neighbors g u) l r roots, vectors⟩)
  | ⟨phase, .bfsOdd _ [] l r roots, vectors⟩ => .ok (.next ⟨phase, .bfs l r roots, vectors⟩)
  | ⟨phase, .bfsOdd u (v :: vs) l r roots, vectors⟩ => do
      if ← marked vectors phase v then .ok (.next ⟨phase, .bfsOdd u vs l r roots, vectors⟩)
      else
        let w ← vectors.mate.get v
        if u = w then .ok (.next ⟨phase, .bfsOdd u vs l r roots, vectors⟩)
        else if w < 0 then
          let vectors ← edge vectors u v
          .ok (.next ⟨phase, .path v, vectors⟩)
        else
          let vectors ← mark vectors phase v
          let vectors ← mark vectors phase w
          let vectors ← edge vectors u v
          .ok (.next ⟨phase, .bfsOdd u vs l (w :: r) roots, vectors⟩)
  | ⟨phase, .bfsEven _ [] l r roots, vectors⟩ => .ok (.next ⟨phase, .bfs l r roots, vectors⟩)
  | ⟨phase, .bfsEven u (v :: vs) l r roots, vectors⟩ => do
      if ← marked vectors phase v then .ok (.next ⟨phase, .bfsEven u vs l r roots, vectors⟩)
      else
        let w ← vectors.mate.get v
        let vectors ← mark vectors phase v
        let vectors ← mark vectors phase w
        let vectors ← edge vectors u v
        .ok (.next ⟨phase, .bfsEven u vs l (w :: r) roots, vectors⟩)
  | ⟨phase, .path u, vectors⟩ => do
      if u = -1 then .ok (.next ⟨phase + 1, .bfsRoots unmarried, vectors⟩)
      else
        let v ← vectors.prior.get u
        let w ← vectors.mate.get v
        let mate ← match' vectors.mate u v
        .ok (.next ⟨phase, .path w, { vectors with mate }⟩)

def unmarriedNodes (mate : RwVector Int) : List Int → Except Raised (List Int)
  | [] => .ok []
  | u :: us => do
      let l ← unmarriedNodes mate us
      if ← married mate u then .ok l else .ok (u :: l)

def foldEdges (f : Edge E → X → X) : List (Edge E) → RwVector Int → Nat → X → Except Raised (X × Nat)
  | [], _, k, m => .ok (m, k)
  | e :: es, mate, k, m => do
      if (← mate.get e.source) = e.target then
        let mate ← mate.set e.source (-1)
        let mate ← mate.set e.target (-1)
        foldEdges f es mate (k + 1) (f e m)
      else foldEdges f es mate k m

def start (g : Digraph E) : Except Raised (List Int × State) := do
  let mate ← computeInitialMatching g
  let unmarried ← unmarriedNodes mate g.nodes
  let blank := RwVector.makeRwVector g.capacity (-1)
  .ok (unmarried, ⟨0, .bfsRoots unmarried, ⟨mate, blank, blank⟩⟩)

def Matching (g : Digraph E) (f : Edge E → X → X) (x : X) (result : Except Raised (X × Nat)) :
    Prop :=
  match start g with
  | .error e => result = .error e
  | .ok (unmarried, state) => ∃ searched, Ends (turn g unmarried) state searched ∧
      result = searched >>= fun vectors => foldEdges f g.edges vectors.mate 0 x

/-! # The search for augmenting paths -/

section Definitions

variable (g : Digraph E)

def Adjacent (x y : Int) : Prop :=
  ∃ e ∈ g.edges, e.source = x ∧ e.target = y ∨ e.source = y ∧ e.target = x

def Bipartite (side : Int → Bool) : Prop := ∀ e ∈ g.edges, side e.source ≠ side e.target

structure Paired (mate : RwVector Int) (x : Int) : Prop where
  mem : mate.cell x ∈ g.nodes
  back : mate.cell (mate.cell x) = x
  adjacent : Adjacent g x (mate.cell x)

structure Proper (mate : RwVector Int) : Prop where
  length : mate.length = g.capacity
  paired : ∀ x ∈ g.nodes, mate.cell x ≠ -1 → Paired g mate x

def Maximal (mate : RwVector Int) : Prop :=
  ∀ x y, Adjacent g x y → mate.cell x ≠ -1 ∨ mate.cell y ≠ -1

inductive Trail (vectors : Vectors) : List Int → Prop
  | root {r : Int} : vectors.mate.cell r = -1 → Trail vectors [r]
  | step {u v u' : Int} {rest : List Int} : vectors.mate.cell u = v → vectors.mate.cell v = u →
      vectors.prior.cell v = u' → Adjacent g v u' → Trail vectors (u' :: rest) →
      Trail vectors (u :: v :: u' :: rest)

def Even (R O : Set Int) (mate : RwVector Int) (x : Int) : Prop := x ∈ R ∨ mate.cell x ∈ O

structure Searching (side : Int → Bool) (phase : Int) (vectors : Vectors) (R O queue : Set Int)
    (due : Int → Int → Prop) : Prop where
  proper : Proper g vectors.mate
  maximal : Maximal g vectors.mate
  visited_length : vectors.visited.length = g.capacity
  prior_length : vectors.prior.length = g.capacity
  bound : ∀ x, vectors.visited.cell x ≤ phase
  marked : ∀ x ∈ g.nodes, vectors.visited.cell x = phase ↔ x ∈ O ∨ Even R O vectors.mate x
  roots : ∀ r ∈ R, r ∈ g.nodes ∧ vectors.mate.cell r = -1
  odd : ∀ v ∈ O, v ∈ g.nodes ∧ vectors.mate.cell v ≠ -1 ∧ vectors.mate.cell v ∉ O
  trail : ∀ u ∈ g.nodes, Even R O vectors.mate u → ∃ rest, Trail g vectors (u :: rest) ∧
    (u :: rest).Nodup ∧ ∀ x ∈ u :: rest, x ∈ g.nodes ∧ vectors.visited.cell x = phase
  closed : ∀ u ∈ g.nodes, Even R O vectors.mate u → ∀ v, Adjacent g u v →
    v ∈ O ∨ u ∈ queue ∨ due u v
  queued : ∀ u ∈ queue, u ∈ g.nodes ∧ vectors.mate.cell u ∈ O

structure Augmenting (vectors : Vectors) (x : Int) (trail : List Int) : Prop where
  mate_length : vectors.mate.length = g.capacity
  visited_length : vectors.visited.length = g.capacity
  prior_length : vectors.prior.length = g.capacity
  mem : x ∈ g.nodes
  paired : ∀ y ∈ g.nodes, y ≠ x → vectors.mate.cell y ≠ -1 →
    Paired g vectors.mate y ∧ vectors.mate.cell y ≠ x
  maximal : ∀ y z, Adjacent g y z → (y = x ∨ vectors.mate.cell y ≠ -1) ∨
    (z = x ∨ vectors.mate.cell z ≠ -1)
  first : ∃ u rest, trail = u :: rest ∧ vectors.prior.cell x = u ∧ Adjacent g x u
  path : Trail g vectors trail
  nodup : (x :: trail).Nodup
  nodes : ∀ y ∈ trail, y ∈ g.nodes

end Definitions

section Basics

variable {g : Digraph E} {mate : RwVector Int} {vectors : Vectors} {x y u v w phase : Int}
  {side : Int → Bool} {R O queue : Set Int} {due : Int → Int → Prop} {rest : List Int}

theorem Adjacent.symm (adjacent : Adjacent g x y) : Adjacent g y x := by
  obtain ⟨e, mem, ends⟩ := adjacent
  exact ⟨e, mem, ends.symm⟩

theorem Adjacent.mem (adjacent : Adjacent g x y) : x ∈ g.nodes ∧ y ∈ g.nodes := by
  obtain ⟨e, mem, ⟨rfl, rfl⟩ | ⟨rfl, rfl⟩⟩ := adjacent
  · exact ⟨Digraph.source_mem mem, Digraph.target_mem mem⟩
  · exact ⟨Digraph.target_mem mem, Digraph.source_mem mem⟩

theorem Bipartite.ne (bipartite : Bipartite g side) (adjacent : Adjacent g x y) :
    side x ≠ side y := by
  obtain ⟨e, mem, ⟨rfl, rfl⟩ | ⟨rfl, rfl⟩⟩ := adjacent
  · exact bipartite e mem
  · exact (bipartite e mem).symm

theorem mem_neighbors : v ∈ neighbors g u ↔ Adjacent g u v := by
  simp only [neighbors, Digraph.next, Digraph.prior, List.mem_append, List.mem_map,
    Digraph.mem_outEdges, g.mem_inEdges]
  constructor
  · rintro (⟨e, ⟨source, mem⟩, target⟩ | ⟨e, ⟨target, _, mem⟩, source⟩)
    · exact ⟨e, mem, .inl ⟨source, target⟩⟩
    · exact ⟨e, mem, .inr ⟨source, target⟩⟩
  · rintro ⟨e, mem, ⟨source, target⟩ | ⟨source, target⟩⟩
    · exact .inl ⟨e, ⟨source, mem⟩, target⟩
    · exact .inr ⟨e, ⟨target, trivial, mem⟩, source⟩

theorem ne_none (mem : x ∈ g.nodes) : x ≠ -1 := by
  rintro rfl
  exact absurd (g.nodes_bound _ mem).1 (by decide)

theorem within_of_length {α : Type} {vector : RwVector α} (length : vector.length = g.capacity)
    (mem : x ∈ g.nodes) : vector.Within x := by
  have bound := g.nodes_bound x mem
  rw [← length] at bound
  exact bound

theorem Proper.lt_iff (proper : Proper g mate) (mem : x ∈ g.nodes) :
    mate.cell x < 0 ↔ mate.cell x = -1 := by
  constructor
  · intro negative
    by_contra married
    have bound := g.nodes_bound _ (proper.paired x mem married).mem
    omega
  · intro none
    rw [none]
    decide

theorem Proper.married (proper : Proper g mate) (mem : x ∈ g.nodes) :
    married mate x = .ok (decide (mate.cell x ≠ -1)) := by
  have same : mate.cell x ≥ 0 ↔ mate.cell x ≠ -1 := by
    have negative := proper.lt_iff mem
    omega
  simp only [BipartiteMatching.married, RwVector.get_of_within (within_of_length proper.length mem),
    ok_bind, same]

theorem marked_ok (phase : Int) (length : vectors.visited.length = g.capacity) (mem : x ∈ g.nodes) :
    marked vectors phase x = .ok (decide (vectors.visited.cell x = phase)) := by
  rw [marked, RwVector.get_of_within (within_of_length length mem), ok_bind]

theorem mark_ok (length : vectors.visited.length = g.capacity) (mem : x ∈ g.nodes) :
    mark vectors phase x = .ok { vectors with visited := vectors.visited.put x phase } := by
  rw [mark, RwVector.set_of_within (within_of_length length mem), ok_bind]

theorem edge_ok (length : vectors.prior.length = g.capacity) (mem : v ∈ g.nodes) :
    edge vectors u v = .ok { vectors with prior := vectors.prior.put v u } := by
  rw [edge, RwVector.set_of_within (within_of_length length mem), ok_bind]

theorem match_ok (length : mate.length = g.capacity) (memX : x ∈ g.nodes) (memY : y ∈ g.nodes) :
    match' mate x y = .ok ((mate.put x y).put y x) := by
  have withinY : (mate.put x y).Within y := within_of_length length memY
  rw [match', RwVector.set_of_within (within_of_length length memX), ok_bind,
    RwVector.set_of_within withinY]

variable {trail : List Int}

theorem Trail.congr {vectors' : Vectors} (path : Trail g vectors trail)
    (mates : ∀ x ∈ trail, vectors'.mate.cell x = vectors.mate.cell x)
    (priors : ∀ x ∈ trail, vectors'.prior.cell x = vectors.prior.cell x) :
    Trail g vectors' trail := by
  induction path with
  | root none =>
    apply Trail.root
    rw [mates _ List.mem_cons_self]
    exact none
  | @step u v u' rest mate back prior adjacent _ ih =>
    have later (x : Int) (mem : x ∈ u' :: rest) : x ∈ u :: v :: u' :: rest :=
      List.mem_cons_of_mem u (List.mem_cons_of_mem v mem)
    have memV : v ∈ u :: v :: u' :: rest := List.mem_cons_of_mem u List.mem_cons_self
    apply Trail.step
    · rw [mates u List.mem_cons_self]
      exact mate
    · rw [mates v memV]
      exact back
    · rw [priors v memV]
      exact prior
    · exact adjacent
    · exact ih (fun x mem => mates x (later x mem)) fun x mem => priors x (later x mem)

theorem Searching.even_not_odd (searching : Searching g side phase vectors R O queue due)
    (even : Even R O vectors.mate u) : u ∉ O := by
  intro odd
  obtain ⟨_, married, notOdd⟩ := searching.odd u odd
  rcases even with root | isOdd
  · exact married (searching.roots u root).2
  · exact notOdd isOdd

theorem Searching.odd_of_marked (searching : Searching g side phase vectors R O queue due)
    (bipartite : Bipartite g side) (even : Even R O vectors.mate u)
    (sameSide : ∀ q ∈ queue, side q = side u) (current : ∀ x y, due x y → x = u)
    (adjacent : Adjacent g u v) (marked : vectors.visited.cell v = phase) : v ∈ O := by
  have different := bipartite.ne adjacent
  rcases (searching.marked v adjacent.mem.2).mp marked with odd | evenV
  · exact odd
  · exfalso
    rcases searching.closed v adjacent.mem.2 evenV u adjacent.symm with odd | waits | isDue
    · exact searching.even_not_odd even odd
    · exact different (sameSide v waits).symm
    · exact different (congrArg side (current v u isDue)).symm

theorem Searching.skip (searching : Searching g side phase vectors R O queue
      fun x y => x = u ∧ y ∈ v :: rest) (odd : v ∈ O) :
    Searching g side phase vectors R O queue fun x y => x = u ∧ y ∈ rest := by
  refine { searching with closed := fun x mem even y adjacent => ?_ }
  rcases searching.closed x mem even y adjacent with odd' | waits | ⟨isU, member⟩
  · exact .inl odd'
  · exact .inr (.inl waits)
  · rcases List.mem_cons.mp member with rfl | later
    · exact .inl odd
    · exact .inr (.inr ⟨isU, later⟩)

theorem Searching.unmarked (searching : Searching g side phase vectors R O queue due)
    (mem : v ∈ g.nodes) (unmarked : vectors.visited.cell v ≠ phase) :
    v ∉ O ∧ v ∉ R ∧ vectors.mate.cell v ∉ O := by
  have neither := mt (searching.marked v mem).mpr unmarked
  refine ⟨fun odd => neither (.inl odd), fun root => neither (.inr (.inl root)),
    fun even => neither (.inr (.inr even))⟩

def explored (vectors : Vectors) (phase u v : Int) : Vectors where
  mate := vectors.mate
  visited := (vectors.visited.put v phase).put (vectors.mate.cell v) phase
  prior := vectors.prior.put v u

theorem explored_visited (x : Int) : (explored vectors phase u v).visited.cell x =
      if x = vectors.mate.cell v ∨ x = v then phase else vectors.visited.cell x := by
  unfold explored
  by_cases isMate : x = vectors.mate.cell v
  · simp [isMate]
  · rw [RwVector.put_cell_of_ne isMate]
    by_cases isV : x = v
    · simp [isV]
    · rw [RwVector.put_cell_of_ne isV]
      simp [isMate, isV]

theorem Searching.explore (searching : Searching g side phase vectors R O queue
      fun x y => x = u ∧ y ∈ v :: rest) (bipartite : Bipartite g side)
    (even : Even R O vectors.mate u) (adjacent : Adjacent g u v)
    (unmarked : vectors.visited.cell v ≠ phase) (married : vectors.mate.cell v ≠ -1) :
    Searching g side phase (explored vectors phase u v) R (insert v O)
      (insert (vectors.mate.cell v) queue) fun x y => x = u ∧ y ∈ rest := by
  have memV := adjacent.mem.2
  obtain ⟨memW, back, pair⟩ := searching.proper.paired v memV married
  obtain ⟨notOdd, notRoot, mateNotOdd⟩ := searching.unmarked memV unmarked
  have different : vectors.mate.cell v ≠ v := fun same =>
    bipartite.ne pair (congrArg side same).symm
  have isMate {x : Int} (mem : x ∈ g.nodes) (mate : vectors.mate.cell x = v) :
      x = vectors.mate.cell v := by
    have pairX := searching.proper.paired x mem (by rw [mate]; exact ne_none memV)
    rw [← mate, pairX.back]
  have unmarkedW : vectors.visited.cell (vectors.mate.cell v) ≠ phase := by
    rw [Ne, searching.marked _ memW]
    rintro (odd | root | mateOdd)
    · exact mateNotOdd odd
    · have none := (searching.roots _ root).2
      rw [back] at none
      exact ne_none memV none
    · rw [back] at mateOdd
      exact notOdd mateOdd
  have oldEven {x : Int} (mem : x ∈ g.nodes) (evenX : Even R (insert v O) vectors.mate x) :
      Even R O vectors.mate x ∨ x = vectors.mate.cell v := by
    rcases evenX with root | mate | odd
    · exact .inl (.inl root)
    · exact .inr (isMate mem mate)
    · exact .inl (.inr odd)
  have stillTrail {trail : List Int} (path : Trail g vectors trail)
      (marked : ∀ x ∈ trail, x ∈ g.nodes ∧ vectors.visited.cell x = phase) :
      Trail g (explored vectors phase u v) trail ∧
        ∀ x ∈ trail, x ∈ g.nodes ∧ (explored vectors phase u v).visited.cell x = phase := by
    constructor
    · refine path.congr (fun x _ => rfl) fun x mem => RwVector.put_cell_of_ne ?_
      rintro rfl
      exact unmarked (marked _ mem).2
    · intro x mem
      rw [explored_visited]
      exact ⟨(marked x mem).1, by simp [(marked x mem).2]⟩
  constructor
  case proper => exact searching.proper
  case maximal => exact searching.maximal
  case visited_length => exact searching.visited_length
  case prior_length => exact searching.prior_length
  case bound =>
    intro x
    rw [explored_visited]
    split
    · exact Int.le_refl phase
    · exact searching.bound x
  case marked =>
    intro x mem
    rw [explored_visited]
    by_cases isW : x = vectors.mate.cell v
    · rw [isW]
      simp only [true_or, if_true, true_iff]
      exact .inr (.inr (.inl back))
    by_cases isV : x = v
    · rw [isV]
      simp only [or_true, if_true, true_iff]
      exact .inl (.inl rfl)
    rw [if_neg (not_or.mpr ⟨isW, isV⟩), searching.marked x mem]
    constructor
    · rintro (odd | root | mateOdd)
      · exact .inl (.inr odd)
      · exact .inr (.inl root)
      · exact .inr (.inr (.inr mateOdd))
    · rintro ((same | odd) | evenX)
      · exact (isV same).elim
      · exact .inl odd
      · exact .inr ((oldEven mem evenX).resolve_right isW)
  case roots => exact searching.roots
  case odd =>
    rintro x (rfl | odd)
    · refine ⟨memV, married, ?_⟩
      rintro (same | isOdd)
      · exact different same
      · exact mateNotOdd isOdd
    · obtain ⟨mem, marriedX, mateX⟩ := searching.odd x odd
      refine ⟨mem, marriedX, ?_⟩
      rintro (same | isOdd)
      · have isW := isMate mem same
        rw [isW] at odd
        exact mateNotOdd odd
      · exact mateX isOdd
  case trail =>
    intro x mem evenX
    rcases oldEven mem evenX with old | rfl
    · obtain ⟨rest, path, nodup, marked⟩ := searching.trail x mem old
      obtain ⟨path', marked'⟩ := stillTrail path marked
      exact ⟨rest, path', nodup, marked'⟩
    · obtain ⟨rest, path, nodup, marked⟩ := searching.trail u adjacent.mem.1 even
      obtain ⟨path', marked'⟩ := stillTrail path marked
      refine ⟨v :: u :: rest, .step back rfl RwVector.put_cell_self adjacent.symm path', ?_, ?_⟩
      · rw [List.nodup_cons, List.nodup_cons]
        refine ⟨?_, fun member => unmarked (marked v member).2, nodup⟩
        intro member
        rcases List.mem_cons.mp member with same | member
        · exact different same
        · exact unmarkedW (marked _ member).2
      · intro y member
        rcases List.mem_cons.mp member with rfl | member
        · exact ⟨memW, by rw [explored_visited]; simp⟩
        rcases List.mem_cons.mp member with rfl | member
        · exact ⟨memV, by rw [explored_visited]; simp⟩
        · exact marked' y member
  case closed =>
    intro x mem evenX y adjacentXY
    rcases oldEven mem evenX with old | rfl
    · rcases searching.closed x mem old y adjacentXY with odd | waits | ⟨isU, member⟩
      · exact .inl (.inr odd)
      · exact .inr (.inl (.inr waits))
      · rcases List.mem_cons.mp member with rfl | later
        · exact .inl (.inl rfl)
        · exact .inr (.inr ⟨isU, later⟩)
    · exact .inr (.inl (.inl rfl))
  case queued =>
    rintro x (rfl | waits)
    · exact ⟨memW, .inl back⟩
    · exact ⟨(searching.queued x waits).1, .inr (searching.queued x waits).2⟩

theorem Searching.found (searching : Searching g side phase vectors R O queue due)
    (even : Even R O vectors.mate u) (adjacent : Adjacent g u v)
    (unmarked : vectors.visited.cell v ≠ phase) (unmarried : vectors.mate.cell v = -1) : ∃ trail,
    Augmenting g { vectors with prior := vectors.prior.put v u } v trail := by
  obtain ⟨rest, path, nodup, marked⟩ := searching.trail u adjacent.mem.1 even
  have fresh : v ∉ u :: rest := fun member => unmarked (marked v member).2
  refine ⟨u :: rest, ?_⟩
  constructor
  case mate_length => exact searching.proper.length
  case visited_length => exact searching.visited_length
  case prior_length => exact searching.prior_length
  case mem => exact adjacent.mem.2
  case paired =>
    intro y mem _ married
    have pair := searching.proper.paired y mem married
    refine ⟨⟨pair.mem, pair.back, pair.adjacent⟩, fun same => ?_⟩
    have back := pair.back
    rw [same, unmarried] at back
    exact ne_none mem back.symm
  case maximal => exact fun y z edge => (searching.maximal y z edge).imp .inr .inr
  case first => exact ⟨u, rest, rfl, RwVector.put_cell_self, adjacent.symm⟩
  case path =>
    refine path.congr (fun _ _ => rfl) fun x member => RwVector.put_cell_of_ne ?_
    rintro rfl
    exact fresh member
  case nodup => exact List.nodup_cons.mpr ⟨fresh, nodup⟩
  case nodes => exact fun y member => (marked y member).1

theorem Searching.root (searching : Searching g side phase vectors R O ∅ fun _ _ => False)
    (mem : u ∈ g.nodes) (unmarried : vectors.mate.cell u = -1)
    (unmarked : vectors.visited.cell u ≠ phase) :
    Searching g side phase { vectors with visited := vectors.visited.put u phase } (insert u R) O ∅
      fun x y => x = u ∧ y ∈ neighbors g u := by
  have visited (x : Int) : (vectors.visited.put u phase).cell x =
      if x = u then phase else vectors.visited.cell x := by
    by_cases same : x = u
    · simp [same]
    · rw [RwVector.put_cell_of_ne same, if_neg same]
  have oldEven {x : Int} (even : Even (insert u R) O vectors.mate x) :
      x = u ∨ Even R O vectors.mate x := by
    rcases even with (same | root) | odd
    · exact .inl same
    · exact .inr (.inl root)
    · exact .inr (.inr odd)
  constructor
  case proper => exact searching.proper
  case maximal => exact searching.maximal
  case visited_length => exact searching.visited_length
  case prior_length => exact searching.prior_length
  case bound =>
    intro x
    rw [visited]
    split
    · exact Int.le_refl phase
    · exact searching.bound x
  case marked =>
    intro x memX
    rw [visited]
    by_cases same : x = u
    · rw [same]
      simp only [if_true, true_iff]
      exact .inr (.inl (.inl rfl))
    rw [if_neg same, searching.marked x memX]
    constructor
    · rintro (odd | root | mateOdd)
      · exact .inl odd
      · exact .inr (.inl (.inr root))
      · exact .inr (.inr mateOdd)
    · rintro (odd | even)
      · exact .inl odd
      · exact .inr ((oldEven even).resolve_left same)
  case roots =>
    rintro r (rfl | root)
    · exact ⟨mem, unmarried⟩
    · exact searching.roots r root
  case odd => exact searching.odd
  case trail =>
    intro x memX even
    rcases oldEven even with rfl | old
    · refine ⟨[], .root unmarried, List.nodup_singleton x, fun y member => ?_⟩
      rw [List.mem_singleton.mp member]
      exact ⟨mem, RwVector.put_cell_self⟩
    · obtain ⟨rest, path, nodup, marked⟩ := searching.trail x memX old
      refine ⟨rest, path.congr (fun _ _ => rfl) fun _ _ => rfl, nodup, fun y member => ?_⟩
      obtain ⟨memY, markedY⟩ := marked y member
      refine ⟨memY, ?_⟩
      rw [visited, markedY, ite_self]
  case closed =>
    intro x memX even y adjacent
    rcases oldEven even with rfl | old
    · exact .inr (.inr ⟨rfl, mem_neighbors.mpr adjacent⟩)
    · rcases searching.closed x memX old y adjacent with odd | waits | isDue
      · exact .inl odd
      · exact waits.elim
      · exact isDue.elim
  case queued => exact fun _ waits => waits.elim

def rematched (mate : RwVector Int) (x u : Int) : RwVector Int := (mate.put x u).put u x

theorem rematched_right : (rematched mate x u).cell u = x := RwVector.put_cell_self

theorem rematched_left (other : x ≠ u) : (rematched mate x u).cell x = u := by
  rw [rematched, RwVector.put_cell_of_ne other, RwVector.put_cell_self]

theorem rematched_of_ne (notX : y ≠ x) (notU : y ≠ u) :
    (rematched mate x u).cell y = mate.cell y := by
  rw [rematched, RwVector.put_cell_of_ne notU, RwVector.put_cell_of_ne notX]

theorem Augmenting.adjacent (augmenting : Augmenting g vectors x (u :: trail)) :
    vectors.prior.cell x = u ∧ Adjacent g x u ∧ x ≠ u := by
  obtain ⟨u', rest, same, prior, adjacent⟩ := augmenting.first
  cases same
  refine ⟨prior, adjacent, ?_⟩
  rintro rfl
  exact (List.nodup_cons.mp augmenting.nodup).1 List.mem_cons_self

theorem Augmenting.paired_rematched
    (augmenting : Augmenting g vectors x (u :: trail)) (mem : y ∈ g.nodes)
    (notMate : y ≠ vectors.mate.cell u) (married : (rematched vectors.mate x u).cell y ≠ -1) :
    Paired g (rematched vectors.mate x u) y ∧
      (y ≠ x → y ≠ u → (rematched vectors.mate x u).cell y = vectors.mate.cell y ∧
        vectors.mate.cell y ≠ x ∧ Paired g vectors.mate y) := by
  obtain ⟨_, adjacent, other⟩ := augmenting.adjacent
  have memU : u ∈ g.nodes := augmenting.nodes u List.mem_cons_self
  by_cases isU : y = u
  · rw [isU]
    refine ⟨⟨?_, ?_, ?_⟩, fun _ notU => (notU rfl).elim⟩
    · rw [rematched_right]
      exact augmenting.mem
    · rw [rematched_right, rematched_left other]
    · rw [rematched_right]
      exact adjacent.symm
  by_cases isX : y = x
  · rw [isX]
    refine ⟨⟨?_, ?_, ?_⟩, fun notX => (notX rfl).elim⟩
    · rw [rematched_left other]
      exact memU
    · rw [rematched_left other, rematched_right]
    · rw [rematched_left other]
      exact adjacent
  rw [rematched_of_ne isX isU] at married
  obtain ⟨pair, notX⟩ := augmenting.paired y mem isX married
  have notU : vectors.mate.cell y ≠ u := by
    intro same
    have back := pair.back
    rw [same] at back
    exact notMate back.symm
  refine ⟨⟨?_, ?_, ?_⟩, fun _ _ => ⟨rematched_of_ne isX isU, notX, pair⟩⟩
  · rw [rematched_of_ne isX isU]
    exact pair.mem
  · rw [rematched_of_ne isX isU, rematched_of_ne notX notU]
    exact pair.back
  · rw [rematched_of_ne isX isU]
    exact pair.adjacent

theorem Augmenting.stays_married
    (augmenting : Augmenting g vectors x (u :: trail)) (married : y = x ∨ vectors.mate.cell y ≠ -1) :
    (rematched vectors.mate x u).cell y ≠ -1 := by
  obtain ⟨_, _, other⟩ := augmenting.adjacent
  by_cases isU : y = u
  · rw [isU, rematched_right]
    exact ne_none augmenting.mem
  by_cases isX : y = x
  · rw [isX, rematched_left other]
    exact ne_none (augmenting.nodes u List.mem_cons_self)
  · rw [rematched_of_ne isX isU]
    exact married.resolve_left isX

theorem Augmenting.step (augmenting : Augmenting g vectors x (u :: trail))
    (married : vectors.mate.cell u ≠ -1) : ∃ trail', trail'.length < trail.length ∧
    Augmenting g { vectors with mate := rematched vectors.mate x u } (vectors.mate.cell u)
      trail' := by
  obtain ⟨_, _, other⟩ := augmenting.adjacent
  have nodup := augmenting.nodup
  have nodes := augmenting.nodes
  have path := augmenting.path
  cases path with
  | root none => exact (married none).elim
  | @step _ v u' rest mate back prior adjacent path =>
    subst mate
    rw [List.nodup_cons, List.nodup_cons] at nodup
    obtain ⟨freshX, freshU, nodup⟩ := nodup
    have away (y : Int) (mem : y ∈ u' :: rest) : y ≠ x ∧ y ≠ u := by
      constructor
      · rintro rfl
        exact freshX (List.mem_cons_of_mem _ (List.mem_cons_of_mem _ mem))
      · rintro rfl
        exact freshU (List.mem_cons_of_mem _ mem)
    have mateX : vectors.mate.cell u ≠ x := by
      intro same
      apply freshX
      rw [← same]
      exact List.mem_cons_of_mem _ List.mem_cons_self
    have mateU : vectors.mate.cell u ≠ u := by
      intro same
      apply freshU
      rw [same]
      exact List.mem_cons_self
    refine ⟨u' :: rest, by simp, ?_⟩
    constructor
    case mate_length => exact augmenting.mate_length
    case visited_length => exact augmenting.visited_length
    case prior_length => exact augmenting.prior_length
    case mem => exact nodes _ (List.mem_cons_of_mem _ List.mem_cons_self)
    case paired =>
      intro y mem notMate marriedY
      obtain ⟨pair, others⟩ := augmenting.paired_rematched mem notMate marriedY
      refine ⟨pair, ?_⟩
      by_cases isU : y = u
      · rw [isU]
        rw [rematched_right]
        exact mateX.symm
      by_cases isX : y = x
      · rw [isX]
        rw [rematched_left other]
        exact mateU.symm
      · obtain ⟨same, _, pairY⟩ := others isX isU
        rw [same]
        intro shared
        have backY := pairY.back
        rw [shared, back] at backY
        exact isU backY.symm
    case maximal =>
      intro y z edge
      rcases augmenting.maximal y z edge with left | right
      · exact .inl (.inr (augmenting.stays_married left))
      · exact .inr (.inr (augmenting.stays_married right))
    case first => exact ⟨u', rest, rfl, prior, adjacent⟩
    case path =>
      refine path.congr (fun y mem => ?_) fun _ _ => rfl
      exact rematched_of_ne (away y mem).1 (away y mem).2
    case nodup => exact nodup
    case nodes =>
      exact fun y mem => nodes y (List.mem_cons_of_mem _ (List.mem_cons_of_mem _ mem))

theorem Augmenting.last (augmenting : Augmenting g vectors x (u :: trail))
    (unmarried : vectors.mate.cell u = -1) :
    Proper g (rematched vectors.mate x u) ∧ Maximal g (rematched vectors.mate x u) := by
  constructor
  · refine ⟨augmenting.mate_length, fun y mem married => ?_⟩
    refine (augmenting.paired_rematched mem ?_ married).1
    rw [unmarried]
    exact ne_none mem
  · intro y z edge
    exact (augmenting.maximal y z edge).imp augmenting.stays_married augmenting.stays_married

end Basics

end Mythryl.Graph.BipartiteMatching
