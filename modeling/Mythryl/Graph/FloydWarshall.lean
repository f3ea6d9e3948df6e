import Mythryl.AllPairs
import Mythryl.Graph.Matrix
import Mythryl.Graph.SingleSource

/-!
# Floyd and Warshall's all pairs shortest paths

`floyd_warshals_all_pairs_shortest_path_g`, for an ordered abelian group with infinity: for one node
after another, the paths between all pairs of nodes are compared with those that go by it.
-/

namespace Mythryl.Graph.FloydWarshall

variable {E G : Type} [AddCommGroup G] [LinearOrder G]

def diag : Nat → Matrix (WithTop G) → Except Raised (Matrix (WithTop G))
  | 0, ddd => .ok ddd
  | i + 1, ddd => do diag i (← ddd.set i i 0)

def enterEdge (weight : Edge E → WithTop G) (paths : Paths G) (e : Edge E) :
    Except Raised (Paths G) := do
  let w := weight e
  if w < (← paths.dist.get e.source e.target) then
    let prior ← paths.prior.set e.source e.target e.source
    let dist ← paths.dist.set e.source e.target w
    .ok ⟨dist, prior⟩
  else .ok paths

def init (weight : Edge E → WithTop G) (g : Digraph E) (paths : Paths G) :
    Except Raised (Paths G) := do
  let dist ← diag g.capacity.toNat paths.dist
  g.edges.foldlM (enterEdge weight) { paths with dist }

def compare (k i j : Nat) (dIk : WithTop G) (paths : Paths G) : Except Raised (Paths G) := do
  let dIj ← paths.dist.get i j
  let dKj ← paths.dist.get k j
  let x := dIk + dKj
  if x < dIj then
    let prior ← paths.prior.set i j (← paths.prior.get k j)
    let dist ← paths.dist.set i j x
    .ok ⟨dist, prior⟩
  else .ok paths

def l3 (n k i j : Nat) (dIk : WithTop G) (paths : Paths G) : Except Raised (Paths G) := do
  if j < n then l3 n k i (j + 1) dIk (← compare k i j dIk paths)
  else .ok paths
termination_by n - j

def l2 (n k i : Nat) (paths : Paths G) : Except Raised (Paths G) := do
  if i < n then
    let dIk ← paths.dist.get i k
    l2 n k (i + 1) (← l3 n k i 0 dIk paths)
  else .ok paths
termination_by n - i

def l1 (n k : Nat) (paths : Paths G) : Except Raised (Paths G) := do
  if k < n then l1 n (k + 1) (← l2 n k 0 paths)
  else .ok paths
termination_by n - k

def allPairsShortestPaths (weight : Edge E → WithTop G) (g : Digraph E) :
    Except Raised (Paths G) := do
  let ddd ← Matrix.makeMatrix g.capacity g.capacity ⊤
  let ppp ← Matrix.makeMatrix g.capacity g.capacity (-1)
  let paths ← init weight g ⟨ddd, ppp⟩
  l1 g.capacity.toNat 0 paths

/-! # Shortest paths by the nodes they go by -/

open ShortestPaths

def indices (n : Nat) : Set Int := { i | 0 ≤ i ∧ i < n }

structure Invariant (weight : Edge E → WithTop G) (g : Digraph E) (n : Nat) (paths : Paths G) :
    Prop where
  square : paths.Square n
  attained : Attained (network weight g) (indices n) paths.dist.entry

def Lowered (n : Nat) (paths paths' : Paths G) : Prop :=
  ∀ u ∈ indices n, ∀ v ∈ indices n, paths'.dist.entry u v ≤ paths.dist.entry u v

section Entries

variable {weight : Edge E → WithTop G} {g : Digraph E} {n m i j k : Nat} {u v : Int}
  {paths paths' paths'' : Paths G} {dIk x : WithTop G} {e : Edge E} {prior : Int}

theorem mem_indices_iff : u ∈ indices n ↔ 0 ≤ u ∧ u < n := Iff.rfl

theorem mem_indices (less : i < n) : (i : Int) ∈ indices n :=
  ⟨Int.natCast_nonneg i, Int.ofNat_lt.mpr less⟩

omit [AddCommGroup G] in
theorem Lowered.refl (paths : Paths G) : Lowered n paths paths := fun _ _ _ _ => le_rfl

omit [AddCommGroup G] in
theorem Lowered.trans (lowered : Lowered n paths paths') (lowered' : Lowered n paths' paths'') :
    Lowered n paths paths'' :=
  fun u memU v memV => (lowered' u memU v memV).trans (lowered u memU v memV)

theorem Invariant.enter (inv : Invariant weight g n paths) (memU : u ∈ indices n)
    (memV : v ∈ indices n) (less : x < paths.dist.entry u v)
    (path : ∃ p, Walk (network weight g) u v p ∧ total (network weight g) p = x) (prior : Int) :
    Invariant weight g n ⟨paths.dist.enter u v x, paths.prior.enter u v prior⟩ ∧
      Lowered n paths ⟨paths.dist.enter u v x, paths.prior.enter u v prior⟩ := by
  have others {u' v' : Int} (memU' : u' ∈ indices n) (memV' : v' ∈ indices n)
      (other : ¬(u' = u ∧ v' = v)) :
      (paths.dist.enter u v x).entry u' v' = paths.dist.entry u' v' :=
    Matrix.enter_entry_of_ne (inv.square.dist.within memU memV)
      (inv.square.dist.within memU' memV') other
  constructor
  · refine ⟨⟨inv.square.dist.enter, inv.square.prior.enter⟩, ?_⟩
    intro u' memU' v' memV' finite
    by_cases same : u' = u ∧ v' = v
    · obtain ⟨rfl, rfl⟩ := same
      rw [Matrix.enter_entry_self]
      exact path
    · rw [others memU' memV' same] at finite ⊢
      exact inv.attained u' memU' v' memV' finite
  · intro u' memU' v' memV'
    by_cases same : u' = u ∧ v' = v
    · obtain ⟨rfl, rfl⟩ := same
      rw [Matrix.enter_entry_self]
      exact less.le
    · exact (others memU' memV' same).le

omit [LinearOrder G] in
theorem diag_spec {ddd : Matrix (WithTop G)} (square : ddd.Square n) (bound : m ≤ n) :
    ∃ ddd', diag m ddd = .ok ddd' ∧ ddd'.Square n ∧ ∀ u ∈ indices n, ∀ v ∈ indices n,
      ddd'.entry u v = if u = v ∧ u < m then 0 else ddd.entry u v := by
  induction m generalizing ddd with
  | zero =>
    refine ⟨ddd, rfl, square, fun u memU v _ => ?_⟩
    rw [if_neg fun both => absurd both.2 (not_lt.mpr memU.1)]
  | succ i ih =>
    have mem := mem_indices bound
    have within := square.within mem mem
    obtain ⟨ddd', goes, square', entries⟩ :=
      @ih (ddd.enter i i 0) square.enter (Nat.le_of_succ_le bound)
    refine ⟨ddd', ?_, square', fun u memU v memV => ?_⟩
    · rw [diag, Matrix.set_of_within within, ok_bind]
      exact goes
    · rw [entries u memU v memV]
      by_cases here : u = i ∧ v = i
      · obtain ⟨rfl, rfl⟩ := here
        simp
      · rw [Matrix.enter_entry_of_ne within (square.within memU memV) here]
        have same : (u = v ∧ u < (i : Int)) ↔ (u = v ∧ u < ((i + 1 : Nat) : Int)) := by omega
        simp only [same]

theorem enterEdge_spec (inv : Invariant weight g n paths) (mem : e ∈ g.edges)
    (memU : e.source ∈ indices n) (memV : e.target ∈ indices n) :
    ∃ paths', enterEdge weight paths e = .ok paths' ∧ Invariant weight g n paths' ∧
      Lowered n paths paths' ∧ paths'.dist.entry e.source e.target ≤ weight e := by
  have within := inv.square.dist.within memU memV
  by_cases less : weight e < paths.dist.entry e.source e.target
  · have path : ∃ p, Walk (network weight g) e.source e.target p ∧
        total (network weight g) p = weight e :=
      ⟨[e], @Walk.snoc _ _ _ (network weight g) e.source [] e (.nil _) mem, by
        simp [total, network]⟩
    obtain ⟨inv', lowered⟩ := inv.enter memU memV less path e.source
    refine ⟨_, ?_, inv', lowered, Matrix.enter_entry_self.le⟩
    rw [enterEdge, Matrix.get_of_within within, ok_bind, if_pos less,
      Matrix.set_of_within (inv.square.prior.within memU memV), ok_bind,
      Matrix.set_of_within within, ok_bind]
  · refine ⟨paths, ?_, inv, .refl _, not_lt.mp less⟩
    rw [enterEdge, Matrix.get_of_within within, ok_bind, if_neg less]

theorem enterEdges_spec (es : List (Edge E)) (inv : Invariant weight g n paths)
    (edges : ∀ e ∈ es, e ∈ g.edges ∧ e.source ∈ indices n ∧ e.target ∈ indices n) :
    ∃ paths', es.foldlM (enterEdge weight) paths = .ok paths' ∧ Invariant weight g n paths' ∧
      Lowered n paths paths' ∧ ∀ e ∈ es, paths'.dist.entry e.source e.target ≤ weight e := by
  induction es generalizing paths with
  | nil => exact ⟨paths, rfl, inv, .refl _, by simp⟩
  | cons e es ih =>
    obtain ⟨⟨mem, memU, memV⟩, later⟩ := List.forall_mem_cons.mp edges
    obtain ⟨paths₁, enters, inv₁, lowered₁, entry⟩ := enterEdge_spec inv mem memU memV
    obtain ⟨paths₂, rest, inv₂, lowered₂, entries⟩ := ih inv₁ later
    refine ⟨paths₂, ?_, inv₂, lowered₁.trans lowered₂, ?_⟩
    · rw [List.foldlM_cons, enters, ok_bind]
      exact rest
    · exact List.forall_mem_cons.mpr ⟨(lowered₂ _ memU _ memV).trans entry, entries⟩

theorem ends_mem (fits : g.capacity = n) (mem : e ∈ g.edges) :
    e.source ∈ indices n ∧ e.target ∈ indices n := by
  unfold indices
  rw [← fits]
  exact ⟨g.nodes_bound _ (Digraph.source_mem mem), g.nodes_bound _ (Digraph.target_mem mem)⟩

theorem init_spec (weight : Edge E → WithTop G) (fits : g.capacity = n) (square : paths.Square n)
    (blank : ∀ u v, paths.dist.entry u v = ⊤) :
    ∃ paths', init weight g paths = .ok paths' ∧ Invariant weight g n paths' ∧
      Below (network weight g) (indices n) ∅ paths'.dist.entry := by
  obtain ⟨ddd, goes, squareD, entries⟩ := diag_spec square.dist (le_refl n)
  have start : Invariant weight g n { paths with dist := ddd } := by
    refine ⟨⟨squareD, square.prior⟩, fun u memU v memV finite => ?_⟩
    rw [entries u memU v memV, blank] at finite ⊢
    by_cases same : u = v ∧ u < n
    · obtain ⟨rfl, less⟩ := same
      exact ⟨[], .nil u, by simp [less]⟩
    · exact (finite (if_neg same)).elim
  obtain ⟨paths', enters, inv, lowered, edges⟩ := enterEdges_spec g.edges start
    fun e mem => ⟨mem, ends_mem fits mem⟩
  refine ⟨paths', ?_, inv, ?_⟩
  · have all : g.capacity.toNat = n := by omega
    rw [init, all, goes, ok_bind]
    exact enters
  · intro u memU v memV p via
    rcases via.single with ⟨rfl, rfl⟩ | ⟨e, mem, rfl, rfl, rfl⟩
    · have le := lowered u memU u memU
      rw [entries u memU u memU, if_pos ⟨rfl, memU.2⟩] at le
      exact le
    · have one : total (network weight g) [e] = weight e := by simp [total, network]
      rw [one]
      exact edges e mem

end Entries

section Loops

variable {weight : Edge E → WithTop G} {g : Digraph E} {n i j k : Nat} {paths : Paths G}
  {dIk : WithTop G} [IsOrderedAddMonoid G]

omit [IsOrderedAddMonoid G] in
theorem compare_spec (inv : Invariant weight g n paths) (lessI : i < n) (lessK : k < n)
    (lessJ : j < n) (path : dIk ≠ ⊤ → ∃ p, Walk (network weight g) i k p ∧
      total (network weight g) p = dIk) :
    ∃ paths', compare k i j dIk paths = .ok paths' ∧ Invariant weight g n paths' ∧
      Lowered n paths paths' ∧ paths'.dist.entry i j ≤ dIk + paths.dist.entry k j := by
  have memI := mem_indices lessI
  have memJ := mem_indices lessJ
  have memK := mem_indices lessK
  have withinIJ := inv.square.dist.within memI memJ
  have withinKJ := inv.square.dist.within memK memJ
  by_cases less : dIk + paths.dist.entry k j < paths.dist.entry i j
  · have finite := WithTop.add_ne_top.mp less.ne_top
    obtain ⟨p, walk, is⟩ := path finite.1
    obtain ⟨q, walk', is'⟩ := inv.attained k memK j memJ finite.2
    obtain ⟨inv', lowered⟩ := inv.enter memI memJ less
      ⟨p ++ q, walk.append walk', by rw [total_append, is, is']⟩ (paths.prior.entry k j)
    refine ⟨_, ?_, inv', lowered, Matrix.enter_entry_self.le⟩
    rw [compare, Matrix.get_of_within withinIJ, ok_bind, Matrix.get_of_within withinKJ, ok_bind]
    rw [if_pos less, Matrix.get_of_within (inv.square.prior.within memK memJ), ok_bind,
      Matrix.set_of_within (inv.square.prior.within memI memJ), ok_bind,
      Matrix.set_of_within withinIJ, ok_bind]
  · refine ⟨paths, ?_, inv, .refl _, not_lt.mp less⟩
    rw [compare, Matrix.get_of_within withinIJ, ok_bind, Matrix.get_of_within withinKJ, ok_bind]
    exact if_neg less

theorem l3_spec (inv : Invariant weight g n paths) (lessI : i < n) (lessK : k < n)
    (path : dIk ≠ ⊤ → ∃ p, Walk (network weight g) i k p ∧ total (network weight g) p = dIk) :
    ∃ paths', l3 n k i j dIk paths = .ok paths' ∧ Invariant weight g n paths' ∧
      Lowered n paths paths' ∧ ∀ v ∈ indices n, j ≤ v →
        paths'.dist.entry i v ≤ dIk + paths.dist.entry k v := by
  induction left : n - j generalizing j paths with
  | zero =>
    have past : ¬j < n := by omega
    refine ⟨paths, ?_, inv, .refl _, fun v mem le => ?_⟩
    · rw [l3, if_neg past]
    · have less := mem.2
      omega
  | succ left' ih =>
    have lessJ : j < n := by omega
    obtain ⟨paths₁, compares, inv₁, lowered₁, entry⟩ := compare_spec inv lessI lessK lessJ path
    obtain ⟨paths₂, rest, inv₂, lowered₂, entries⟩ := @ih (j + 1) paths₁ inv₁ (by omega)
    refine ⟨paths₂, ?_, inv₂, lowered₁.trans lowered₂, fun v mem le => ?_⟩
    · rw [l3, if_pos lessJ, compares, ok_bind]
      exact rest
    · by_cases here : v = j
      · rw [here]
        exact (lowered₂ _ (mem_indices lessI) _ (mem_indices lessJ)).trans entry
      · calc paths₂.dist.entry i v ≤ dIk + paths₁.dist.entry k v := entries v mem (by omega)
          _ ≤ dIk + paths.dist.entry k v := by
            gcongr
            exact lowered₁ _ (mem_indices lessK) v mem

theorem l2_spec (inv : Invariant weight g n paths) (lessK : k < n) :
    ∃ paths', l2 n k i paths = .ok paths' ∧ Invariant weight g n paths' ∧
      Lowered n paths paths' ∧ ∀ u ∈ indices n, i ≤ u → ∀ v ∈ indices n,
        paths'.dist.entry u v ≤ paths.dist.entry u k + paths.dist.entry k v := by
  induction left : n - i generalizing i paths with
  | zero =>
    have past : ¬i < n := by omega
    refine ⟨paths, ?_, inv, .refl _, fun u mem le => ?_⟩
    · rw [l2, if_neg past]
    · have less := mem.2
      omega
  | succ left' ih =>
    have lessI : i < n := by omega
    have memI := mem_indices lessI
    have memK := mem_indices lessK
    obtain ⟨paths₁, goes, inv₁, lowered₁, entry⟩ := @l3_spec _ _ _ _ _ _ n i 0 k _ _ _ inv
      lessI lessK (inv.attained i memI k memK)
    obtain ⟨paths₂, rest, inv₂, lowered₂, entries⟩ := @ih (i + 1) paths₁ inv₁ (by omega)
    refine ⟨paths₂, ?_, inv₂, lowered₁.trans lowered₂, fun u memU le v memV => ?_⟩
    · rw [l2, if_pos lessI, Matrix.get_of_within (inv.square.dist.within memI memK), ok_bind,
        goes, ok_bind]
      exact rest
    · by_cases here : u = i
      · rw [here]
        exact (lowered₂ _ memI v memV).trans (entry v memV memV.1)
      · calc paths₂.dist.entry u v
            ≤ paths₁.dist.entry u k + paths₁.dist.entry k v := entries u memU (by omega) v memV
          _ ≤ paths.dist.entry u k + paths.dist.entry k v := by
            gcongr
            · exact lowered₁ u memU _ memK
            · exact lowered₁ _ memK v memV

theorem l1_spec (conservative : Conservative (network weight g)) (inv : Invariant weight g n paths)
    (below : Below (network weight g) (indices n) (indices k) paths.dist.entry) (bound : k ≤ n) :
    ∃ paths', l1 n k paths = .ok paths' ∧ Invariant weight g n paths' ∧
      Below (network weight g) (indices n) (indices n) paths'.dist.entry := by
  induction left : n - k generalizing k paths with
  | zero =>
    have all : k = n := by omega
    subst all
    refine ⟨paths, ?_, inv, below⟩
    rw [l1, if_neg (lt_irrefl _)]
  | succ left' ih =>
    have lessK : k < n := by omega
    obtain ⟨paths₁, goes, inv₁, lowered, joined⟩ := @l2_spec _ _ _ _ _ _ n 0 k _ _ inv lessK
    have more : insert (k : Int) (indices k) = indices (k + 1) := by
      ext x
      rw [Set.mem_insert_iff, mem_indices_iff, mem_indices_iff]
      omega
    have below₁ := below.pivot conservative (mem_indices lessK) lowered
      fun u memU v memV => joined u memU memU.1 v memV
    rw [more] at below₁
    obtain ⟨paths₂, rest, inv₂, below₂⟩ := ih inv₁ below₁ lessK (by omega)
    refine ⟨paths₂, ?_, inv₂, below₂⟩
    rw [l1, if_pos lessK, goes, ok_bind]
    exact rest

theorem allPairs_distances (conservative : Conservative (network weight g)) (pos : 0 < g.capacity)
    (fits : g.capacity * g.capacity ≤ Matrix.maximumVectorLength) :
    ∃ paths, allPairsShortestPaths weight g = .ok paths ∧ paths.Square g.capacity ∧
      ∀ u v, 0 ≤ u ∧ u < g.capacity → 0 ≤ v ∧ v < g.capacity →
        IsDistance (network weight g) u v (paths.dist.entry u v) := by
  obtain ⟨n, is⟩ := Int.eq_ofNat_of_zero_le pos.le
  obtain ⟨ddd, makes, squareD, blank⟩ := Matrix.makeMatrix_square (v := (⊤ : WithTop G)) pos fits
  obtain ⟨ppp, makes', squareP, -⟩ := Matrix.makeMatrix_square (v := (-1 : Int)) pos fits
  have square : (⟨ddd, ppp⟩ : Paths G).Square n := is ▸ ⟨squareD, squareP⟩
  obtain ⟨paths₁, inits, inv₁, below₁⟩ := init_spec weight is square blank
  have none : indices 0 = ∅ := by
    ext x
    rw [mem_indices_iff, Set.mem_empty_iff_false, iff_false]
    omega
  rw [← none] at below₁
  obtain ⟨paths, goes, inv, below⟩ := l1_spec conservative inv₁ below₁ (Nat.zero_le n)
  refine ⟨paths, ?_, is ▸ inv.square, fun u v memU memV => ?_⟩
  · have all : g.capacity.toNat = n := by omega
    rw [allPairsShortestPaths, makes, ok_bind, makes', ok_bind, inits, ok_bind, all]
    exact goes
  · rw [is] at memU memV
    exact below.isDistance inv.attained (fun e mem => (ends_mem is mem).1) memU memV

end Loops

end Mythryl.Graph.FloydWarshall
