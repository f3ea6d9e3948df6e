import Mathlib.Data.List.Perm.Basic
import Mathlib.Data.List.Nodup
import Mythryl.Threadkit.Mailop

/-! # The flags of a nack are those of the mailops inside it -/

namespace Threadkit

variable {β : Type}

mutual

def PreparedMailops.leaves : PreparedMailops β → List β
  | .nackfree mailops => mailops
  | .nackfull groups => leavesOf groups
  | .withnack _ group => group.leaves

def leavesOf : List (PreparedMailops β) → List β
  | [] => []
  | group :: rest => group.leaves ++ leavesOf rest

end

mutual

def PreparedMailops.wrapped : PreparedMailops β → List (Condvar × List β)
  | .nackfree _ => []
  | .nackfull groups => wrappedOf groups
  | .withnack condvar group => (condvar, group.leaves) :: group.wrapped

def wrappedOf : List (PreparedMailops β) → List (Condvar × List β)
  | [] => []
  | group :: rest => group.wrapped ++ wrappedOf rest

end

@[simp] theorem leavesOf_append (l l' : List (PreparedMailops β)) :
    leavesOf (l ++ l') = leavesOf l ++ leavesOf l' := by
  induction l with
  | nil => rfl
  | cons group rest ih => simp [leavesOf, ih]

@[simp] theorem wrappedOf_append (l l' : List (PreparedMailops β)) :
    wrappedOf (l ++ l') = wrappedOf l ++ wrappedOf l' := by
  induction l with
  | nil => rfl
  | cons group rest ih => simp [wrappedOf, ih]

structure Gathers (leaves : List β) (wrapped : List (Condvar × List β)) (g g' : Gathered β)
    (mailops : List (β × Flag)) (nackstates : List Nackstate) : Prop where
  gathered : g'.mailops = mailops ++ g.mailops
  states : g'.nackstates = nackstates ++ g.nackstates
  next : g.next ≤ g'.next
  perm : (mailops.map Prod.fst).Perm leaves
  condvars : (nackstates.map Prod.fst).Perm (wrapped.map Prod.fst)
  flags : ∀ placed ∈ mailops,
    placed.2 = unWrappedFlag ∨ (g.next ≤ placed.2 ∧ placed.2 < g'.next)
  bounded : ∀ nackstate ∈ nackstates, ∀ flag ∈ nackstate.2, g.next ≤ flag ∧ flag < g'.next
  covers : ∀ w ∈ wrapped, ∃ flags, (w.1, flags) ∈ nackstates ∧
    (∀ placed ∈ mailops, placed.2 ∈ flags → placed.1 ∈ w.2) ∧
    ∀ mailop ∈ w.2, ∃ flag ∈ flags, (mailop, flag) ∈ mailops

namespace Gathers

variable {leaves leaves' : List β} {wrapped wrapped' : List (Condvar × List β)}
  {g g' g'' : Gathered β} {mailops mailops' : List (β × Flag)}
  {nackstates nackstates' : List Nackstate}

theorem nil (g : Gathered β) : Gathers [] [] g g [] [] where
  gathered := rfl
  states := rfl
  next := Nat.le_refl _
  perm := .refl _
  condvars := .refl _
  flags := by simp
  bounded := by simp
  covers := by simp

theorem append (first : Gathers leaves wrapped g g' mailops nackstates)
    (second : Gathers leaves' wrapped' g' g'' mailops' nackstates')
    (wraps : unWrappedFlag < g.next) :
    Gathers (leaves ++ leaves') (wrapped ++ wrapped') g g'' (mailops' ++ mailops)
      (nackstates' ++ nackstates) where
  gathered := by rw [second.gathered, first.gathered, List.append_assoc]
  states := by rw [second.states, first.states, List.append_assoc]
  next := Nat.le_trans first.next second.next
  perm := by
    rw [List.map_append]
    exact List.perm_append_comm.trans (first.perm.append second.perm)
  condvars := by
    rw [List.map_append, List.map_append]
    exact List.perm_append_comm.trans (first.condvars.append second.condvars)
  flags := by
    intro placed member
    rcases List.mem_append.mp member with new | old
    · exact (second.flags placed new).imp_right fun made => ⟨Nat.le_trans first.next made.1, made.2⟩
    · exact (first.flags placed old).imp_right fun made =>
        ⟨made.1, Nat.lt_of_lt_of_le made.2 second.next⟩
  bounded := by
    intro nackstate member flag inside
    rcases List.mem_append.mp member with new | old
    · have made := second.bounded nackstate new flag inside
      exact ⟨Nat.le_trans first.next made.1, made.2⟩
    · have made := first.bounded nackstate old flag inside
      exact ⟨made.1, Nat.lt_of_lt_of_le made.2 second.next⟩
  covers := by
    intro w member
    rcases List.mem_append.mp member with old | new
    · obtain ⟨flags, state, inside, all⟩ := first.covers w old
      refine ⟨flags, by simp [state], fun placed found flagged => ?_, fun mailop found => ?_⟩
      · rcases List.mem_append.mp found with later | earlier
        · have own := first.bounded _ state _ flagged
          rcases second.flags placed later with unwrapped | made
          · exact absurd (unwrapped ▸ own.1) (Nat.not_le_of_gt wraps)
          · exact absurd made.1 (Nat.not_le_of_gt own.2)
        · exact inside placed earlier flagged
      · obtain ⟨flag, flagged, placed⟩ := all mailop found
        exact ⟨flag, flagged, by simp [placed]⟩
    · obtain ⟨flags, state, inside, all⟩ := second.covers w new
      refine ⟨flags, by simp [state], fun placed found flagged => ?_, fun mailop found => ?_⟩
      · rcases List.mem_append.mp found with later | earlier
        · exact inside placed later flagged
        · have own := second.bounded _ state _ flagged
          rcases first.flags placed earlier with unwrapped | made
          · have late := Nat.le_trans first.next own.1
            exact absurd (unwrapped ▸ late) (Nat.not_le_of_gt wraps)
          · exact absurd own.1 (Nat.not_le_of_gt made.2)
      · obtain ⟨flag, flagged, placed⟩ := all mailop found
        exact ⟨flag, flagged, by simp [placed]⟩

end Gathers

theorem gatherFlags_eq (mailops : List β) (g : Gathered β) :
    gatherFlags mailops g = ⟨(mailops.zipIdx g.next).reverse ++ g.mailops,
      (List.range' g.next mailops.length).reverse ++ g.allFlags, g.nackstates,
      g.next + mailops.length⟩ := by
  induction mailops generalizing g with
  | nil => simp [gatherFlags]
  | cons mailop rest ih =>
    simp [gatherFlags, ih, List.range'_succ, Nat.add_assoc, Nat.add_comm 1]

def FlagsOf (mailops : List (β × Flag)) (g g' : Gathered β) : Prop :=
  ∃ flags, g'.allFlags = flags ++ g.allFlags ∧
    (∀ placed ∈ mailops, placed.2 ∈ flags ∧ g.next ≤ placed.2) ∧
    ∀ flag ∈ flags, g.next ≤ flag ∧ flag < g'.next

theorem gatherFlags_gathers (mailops : List β) (g : Gathered β) :
    ∃ new, Gathers mailops [] g (gatherFlags mailops g) new [] ∧
      FlagsOf new g (gatherFlags mailops g) := by
  rw [gatherFlags_eq]
  refine ⟨(mailops.zipIdx g.next).reverse, ⟨rfl, rfl, by simp, ?_, .refl _, ?_, by simp, by simp⟩,
    (List.range' g.next mailops.length).reverse, rfl, ?_, ?_⟩
  · rw [List.map_reverse, List.zipIdx_map_fst]
    exact List.reverse_perm _
  · rintro ⟨mailop, flag⟩ member
    have place := List.mem_zipIdx (List.mem_reverse.mp member)
    exact .inr ⟨place.1, place.2.1⟩
  · rintro ⟨mailop, flag⟩ member
    have place := List.mem_zipIdx (List.mem_reverse.mp member)
    have low := place.1
    have high := place.2.1
    simp only [List.mem_reverse, List.mem_range'_1]
    exact ⟨⟨low, high⟩, low⟩
  · intro flag member
    simpa [List.mem_range'_1] using member

mutual

theorem gather_gathers : (group : PreparedMailops β) → (g : Gathered β) →
    unWrappedFlag < g.next → ∃ mailops nackstates,
      Gathers group.leaves group.wrapped g (gather group g) mailops nackstates ∧
      FlagsOf mailops g (gather group g)
  | .nackfree mailops, g, _ => by
    obtain ⟨new, gathers, flags⟩ := gatherFlags_gathers mailops g
    exact ⟨new, [], gathers, flags⟩
  | .nackfull groups, g, made => gatherGroups_gathers groups g made
  | .withnack condvar group, g, made => by
    obtain ⟨mailops, nackstates, gathers, flags, all, inside, bounded⟩ :=
      gather_gathers group ⟨g.mailops, [], g.nackstates, g.next⟩ made
    refine ⟨mailops, (condvar, flags) :: nackstates, ?_, flags, ?_, inside, bounded⟩
    · refine ⟨gathers.gathered, ?_, gathers.next, gathers.perm, ?_, gathers.flags, ?_, ?_⟩
      · simp [gather, all, gathers.states]
      · simpa [PreparedMailops.wrapped] using gathers.condvars
      · rw [List.forall_mem_cons]
        exact ⟨bounded, gathers.bounded⟩
      · simp only [PreparedMailops.wrapped, List.forall_mem_cons]
        constructor
        · refine ⟨flags, by simp, fun placed member _ => ?_, fun mailop member => ?_⟩
          · exact gathers.perm.mem_iff.mp (List.mem_map_of_mem member)
          · obtain ⟨placed, found, rfl⟩ :=
              List.mem_map.mp (gathers.perm.mem_iff.mpr member)
            exact ⟨placed.2, (inside placed found).1, found⟩
        · intro w member
          obtain ⟨flags', state, rest⟩ := gathers.covers w member
          exact ⟨flags', by simp [state], rest⟩
    · simp [gather, all]

theorem gatherGroups_gathers : (groups : List (PreparedMailops β)) → (g : Gathered β) →
    unWrappedFlag < g.next → ∃ mailops nackstates,
      Gathers (leavesOf groups) (wrappedOf groups) g (gatherGroups groups g) mailops nackstates ∧
      FlagsOf mailops g (gatherGroups groups g)
  | [], g, _ => ⟨[], [], .nil g, [], by simp [gatherGroups]⟩
  | group :: rest, g, made => by
    obtain ⟨mailops, nackstates, gathers, flags, all, inside, bounded⟩ :=
      gather_gathers group g made
    obtain ⟨mailops', nackstates', gathers', flags', all', inside', bounded'⟩ :=
      gatherGroups_gathers rest (gather group g) (Nat.lt_of_lt_of_le made gathers.next)
    refine ⟨mailops' ++ mailops, nackstates' ++ nackstates, gathers.append gathers' made,
      flags' ++ flags, ?_, ?_, ?_⟩
    · simp [gatherGroups, all', all]
    · have low := gathers.next
      intro placed member
      rcases List.mem_append.mp member with new | old
      · have found := inside' placed new
        exact ⟨by simp [found.1], Nat.le_trans low found.2⟩
      · have found := inside placed old
        exact ⟨by simp [found.1], found.2⟩
    · intro flag member
      rcases List.mem_append.mp member with new | old
      · exact ⟨Nat.le_trans gathers.next (bounded' flag new).1, (bounded' flag new).2⟩
      · exact ⟨(bounded flag old).1, Nat.lt_of_lt_of_le (bounded flag old).2 gathers'.next⟩

end

theorem gatherWrapped_gathers (group : PreparedMailops β) (g : Gathered β)
    (wraps : unWrappedFlag < g.next) : ∃ mailops nackstates,
      Gathers group.leaves group.wrapped g (gatherWrapped group g) mailops nackstates := by
  obtain ⟨mailops, nackstates, gathers, _⟩ :=
    gather_gathers group ⟨g.mailops, [], g.nackstates, g.next⟩ wraps
  exact ⟨mailops, nackstates, gathers.gathered, gathers.states, gathers.next, gathers.perm,
    gathers.condvars, gathers.flags, gathers.bounded, gathers.covers⟩

theorem reverseAndPrependMailops_eq (flag : Flag) (mailops : List β) (l : List (β × Flag)) :
    reverseAndPrependMailops flag mailops l =
      (mailops.map fun mailop => (mailop, flag)).reverse ++ l := by
  induction mailops generalizing l with
  | nil => rfl
  | cons mailop rest ih => simp [reverseAndPrependMailops, ih]

mutual

theorem gatherMailops_gathers : (group : PreparedMailops β) → (g : Gathered β) →
    unWrappedFlag < g.next → ∃ mailops nackstates,
      Gathers group.leaves group.wrapped g (gatherMailops group g) mailops nackstates
  | .nackfree mailops, g, _ => by
    refine ⟨(mailops.map fun mailop => (mailop, unWrappedFlag)).reverse, [],
      reverseAndPrependMailops_eq _ _ _, rfl, Nat.le_refl _, ?_, .refl _, ?_, by simp, ?_⟩
    · rw [List.map_reverse, List.map_map]
      exact (List.reverse_perm _).trans (by simp [Function.comp_def, PreparedMailops.leaves])
    · intro placed member
      obtain ⟨mailop, _, rfl⟩ := List.mem_map.mp (List.mem_reverse.mp member)
      exact .inl rfl
    · simp [PreparedMailops.wrapped]
  | .nackfull groups, g, wraps => gatherMailopsOf_gathers groups g wraps
  | .withnack condvar group, g, wraps => gatherWrapped_gathers (.withnack condvar group) g wraps

theorem gatherMailopsOf_gathers : (groups : List (PreparedMailops β)) → (g : Gathered β) →
    unWrappedFlag < g.next → ∃ mailops nackstates,
      Gathers (leavesOf groups) (wrappedOf groups) g (gatherMailopsOf groups g) mailops nackstates
  | [], g, _ => ⟨[], [], .nil g⟩
  | group :: rest, g, wraps => by
    obtain ⟨mailops, nackstates, gathers⟩ := gatherMailops_gathers group g wraps
    obtain ⟨mailops', nackstates', gathers'⟩ :=
      gatherMailopsOf_gathers rest (gatherMailops group g)
        (Nat.lt_of_lt_of_le wraps gathers.next)
    exact ⟨mailops' ++ mailops, nackstates' ++ nackstates, gathers.append gathers' wraps⟩

end

theorem gatherBaseMailopsAndNackstates_gathers (group : PreparedMailops β) : ∃ g g',
    Gathers group.leaves group.wrapped g g' (gatherBaseMailopsAndNackstates group).1
      (gatherBaseMailopsAndNackstates group).2 := by
  have wraps : unWrappedFlag < unWrappedFlag + 1 := Nat.lt_succ_self _
  have whole : ∀ {g' mailops nackstates},
      Gathers group.leaves group.wrapped ⟨[], [], [], unWrappedFlag + 1⟩ g' mailops nackstates →
      Gathers group.leaves group.wrapped ⟨[], [], [], unWrappedFlag + 1⟩ g'
        g'.mailops g'.nackstates := by
    intro g' mailops nackstates gathers
    have gathered := gathers.gathered
    have states := gathers.states
    rw [List.append_nil] at gathered states
    rw [gathered, states]
    exact gathers
  cases group with
  | nackfull groups =>
    obtain ⟨_, _, gathers⟩ := gatherMailops_gathers (.nackfull groups) ⟨[], [], [], unWrappedFlag + 1⟩ wraps
    exact ⟨_, _, whole gathers⟩
  | nackfree mailops =>
    obtain ⟨_, _, gathers⟩ := gatherWrapped_gathers (.nackfree mailops) ⟨[], [], [], unWrappedFlag + 1⟩ wraps
    exact ⟨_, _, whole gathers⟩
  | withnack condvar group =>
    obtain ⟨_, _, gathers⟩ := gatherWrapped_gathers (.withnack condvar group) ⟨[], [], [], unWrappedFlag + 1⟩ wraps
    exact ⟨_, _, whole gathers⟩

structure Flattened (under : Path → Prop) (leaves : List (Path × β))
    (wrapped : List (Condvar × List (Path × β))) (nacks : List (Path × Condvar))
    (bases : List (Path × β)) : Prop where
  bases : leaves.Perm bases
  inside : ∀ leaf ∈ leaves, under leaf.1
  nodup : (leaves.map Prod.fst).Nodup
  condvars : (wrapped.map Prod.fst).Perm (nacks.map Prod.snd)
  under_nacks : ∀ nack ∈ nacks, under nack.1
  nacks : ∀ nack ∈ nacks, ∃ w, (nack.2, w) ∈ wrapped ∧
    ∀ leaf ∈ leaves, leaf ∈ w ↔ nack.1 <+: leaf.1
  subset : ∀ w ∈ wrapped, w.2 ⊆ leaves

namespace Flattened

variable {under under' : Path → Prop} {leaves leaves' bases bases' : List (Path × β)}
  {wrapped wrapped' : List (Condvar × List (Path × β))} {nacks nacks' : List (Path × Condvar)}

theorem perm (flat : Flattened under leaves wrapped nacks bases) (same : leaves'.Perm leaves)
    (same' : wrapped'.Perm wrapped) : Flattened under leaves' wrapped' nacks bases where
  bases := same.trans flat.bases
  inside := fun leaf member => flat.inside leaf (same.mem_iff.mp member)
  nodup := (same.map _).nodup_iff.mpr flat.nodup
  condvars := (same'.map _).trans flat.condvars
  under_nacks := flat.under_nacks
  nacks := by
    intro nack member
    obtain ⟨w, found, covers⟩ := flat.nacks nack member
    exact ⟨w, same'.mem_iff.mpr found, fun leaf member => covers leaf (same.mem_iff.mp member)⟩
  subset := fun w member leaf found =>
    same.mem_iff.mpr (flat.subset w (same'.mem_iff.mp member) found)

theorem weaken (flat : Flattened under leaves wrapped nacks bases) (weaker : ∀ path, under path →
    under' path) : Flattened under' leaves wrapped nacks bases where
  __ := flat
  inside := fun leaf member => weaker _ (flat.inside leaf member)
  under_nacks := fun nack member => weaker _ (flat.under_nacks nack member)

theorem append (first : Flattened under leaves wrapped nacks bases)
    (second : Flattened under' leaves' wrapped' nacks' bases')
    (apart : ∀ path path', under path → under' path' → ¬ path <+: path' ∧ ¬ path' <+: path) :
    Flattened (fun path => under path ∨ under' path) (leaves ++ leaves') (wrapped ++ wrapped')
      (nacks ++ nacks') (bases ++ bases') where
  bases := first.bases.append second.bases
  inside := by
    intro leaf member
    exact (List.mem_append.mp member).imp (first.inside leaf) (second.inside leaf)
  nodup := by
    rw [List.map_append]
    refine List.nodup_append.mpr ⟨first.nodup, second.nodup, ?_⟩
    rintro path member _ member' rfl
    obtain ⟨leaf, found, rfl⟩ := List.mem_map.mp member
    obtain ⟨leaf', found', equal⟩ := List.mem_map.mp member'
    have parted := (apart _ _ (first.inside leaf found) (second.inside leaf' found')).1
    rw [equal] at parted
    exact parted (List.prefix_refl _)
  condvars := by
    simp only [List.map_append]
    exact first.condvars.append second.condvars
  under_nacks := by
    intro nack member
    exact (List.mem_append.mp member).imp (first.under_nacks nack) (second.under_nacks nack)
  nacks := by
    intro nack member
    rcases List.mem_append.mp member with old | new
    · obtain ⟨w, found, covers⟩ := first.nacks nack old
      refine ⟨w, by simp [found], fun leaf member => ?_⟩
      rcases List.mem_append.mp member with own | other
      · exact covers leaf own
      · have outside := second.inside leaf other
        constructor
        · intro inside
          have own := first.inside leaf (first.subset _ found inside)
          exact absurd (List.prefix_refl _) (apart _ _ own outside).1
        · exact fun extends' =>
            absurd extends' (apart _ _ (first.under_nacks nack old) outside).1
    · obtain ⟨w, found, covers⟩ := second.nacks nack new
      refine ⟨w, by simp [found], fun leaf member => ?_⟩
      rcases List.mem_append.mp member with other | own
      · have outside := first.inside leaf other
        constructor
        · intro inside
          have own := second.inside leaf (second.subset _ found inside)
          exact absurd (List.prefix_refl _) (apart _ _ outside own).1
        · exact fun extends' =>
            absurd extends' (apart _ _ outside (second.under_nacks nack new)).2
      · exact covers leaf own
  subset := by
    intro w member leaf found
    rcases List.mem_append.mp member with old | new
    · simp [first.subset w old found]
    · simp [second.subset w new found]

theorem nil : Flattened under ([] : List (Path × β)) [] [] [] where
  bases := .refl _
  inside := by simp
  nodup := .nil
  condvars := .refl _
  under_nacks := by simp
  nacks := by simp
  subset := by simp

theorem wrap {path : Path} {condvar : Condvar}
    (flat : Flattened (path <+: ·) leaves wrapped nacks bases) :
    Flattened (path <+: ·) leaves ((condvar, leaves) :: wrapped) ((path, condvar) :: nacks)
      bases where
  __ := flat
  condvars := by simpa using flat.condvars
  under_nacks := by
    rw [List.forall_mem_cons]
    exact ⟨List.prefix_refl _, flat.under_nacks⟩
  nacks := by
    rw [List.forall_mem_cons]
    constructor
    · refine ⟨leaves, by simp, fun leaf member => ?_⟩
      exact ⟨fun _ => flat.inside leaf member, fun _ => member⟩
    · intro nack member
      obtain ⟨w, found, covers⟩ := flat.nacks nack member
      exact ⟨w, by simp [found], covers⟩
  subset := by
    rw [List.forall_mem_cons]
    exact ⟨fun _ => id, flat.subset⟩

end Flattened

def UnderFrom (path : Path) (i : Nat) (p : Path) : Prop := ∃ j, i ≤ j ∧ path ++ [j] <+: p

variable {i : Nat} {path : Path}

theorem prefix_parts {p p' : Path} {j : Nat} (first : path ++ [i] <+: p)
    (second : path ++ [j] <+: p') (different : i ≠ j) : ¬ p <+: p' := by
  intro both
  have comparable := List.prefix_of_prefix_length_le (first.trans both) second (by simp)
  have equal := comparable.eq_of_length (by simp)
  exact different (by simpa using equal)

theorem underFrom_apart {p p' : Path} (first : path ++ [i] <+: p)
    (second : UnderFrom path (i + 1) p') : ¬ p <+: p' ∧ ¬ p' <+: p := by
  obtain ⟨j, later, second⟩ := second
  have different : i ≠ j := Nat.ne_of_lt later
  exact ⟨prefix_parts first second different, prefix_parts second first different.symm⟩

theorem base_flattened (mailops : List β) (path : Path) :
    Flattened (path <+: ·) (mailops.mapIdx fun i mailop => (path ++ [i], mailop)) [] []
      (mailops.mapIdx fun i mailop => (path ++ [i], mailop)) where
  bases := .refl _
  inside := by
    intro leaf member
    obtain ⟨i, _, rfl⟩ := List.mem_mapIdx.mp member
    exact List.prefix_append _ _
  nodup := by
    rw [List.nodup_iff_injective_get]
    rintro ⟨i, low⟩ ⟨j, high⟩ same
    simpa using same
  condvars := .refl _
  under_nacks := by simp
  nacks := by simp
  subset := by simp

def Prepares (mailops : List (Mailop β)) (path : Path) (i : Nat) (next : Condvar)
    (leaves' : List (Path × β)) (wrapped' : List (Condvar × List (Path × β)))
    (prepared : PreparedMailops (Path × β) × Condvar) : Prop :=
  prepared.2 = (nacksFrom mailops path i next).2 ∧ ∃ leaves wrapped,
    prepared.1.leaves.Perm (leaves ++ leaves') ∧ prepared.1.wrapped.Perm (wrapped ++ wrapped') ∧
    Flattened (UnderFrom path i) leaves wrapped (nacksFrom mailops path i next).1
      (basesFrom mailops path i next)

theorem Prepares.cons {mailop : Mailop β} {rest : List (Mailop β)}
    {next next' : Condvar} {leaves leaves' : List (Path × β)}
    {wrapped wrapped' : List (Condvar × List (Path × β))}
    {prepared : PreparedMailops (Path × β) × Condvar}
    (later : next' = (mailop.nacks (path ++ [i]) next).2)
    (first : Flattened (path ++ [i] <+: ·) leaves wrapped (mailop.nacks (path ++ [i]) next).1
      (mailop.bases (path ++ [i]) next))
    (others : Prepares rest path (i + 1) next' (leaves ++ leaves') (wrapped ++ wrapped') prepared) :
    Prepares (mailop :: rest) path i next leaves' wrapped' prepared := by
  subst later
  obtain ⟨last, leaves₂, wrapped₂, perm, perm', second⟩ := others
  have within : ∀ p, path ++ [i] <+: p ∨ UnderFrom path (i + 1) p → UnderFrom path i p := by
    rintro p (through | ⟨j, later, through⟩)
    · exact ⟨i, Nat.le_refl i, through⟩
    · exact ⟨j, Nat.le_of_succ_le later, through⟩
  have whole := (first.append second fun p p' => underFrom_apart).weaken within
  refine ⟨last, leaves ++ leaves₂, wrapped ++ wrapped₂, perm.trans ?_, perm'.trans ?_, whole⟩
  · rw [← List.append_assoc]
    exact List.perm_append_comm.append_right leaves'
  · rw [← List.append_assoc]
    exact List.perm_append_comm.append_right wrapped'

namespace DoOneMailop

mutual

theorem prepareOneMailop_flattened : (mailop : Mailop β) → (path : Path) → (next : Condvar) →
    (prepareOneMailop (mailop.tagged path) next).2 = (mailop.nacks path next).2 ∧
    Flattened (path <+: ·) (prepareOneMailop (mailop.tagged path) next).1.leaves
      (prepareOneMailop (mailop.tagged path) next).1.wrapped (mailop.nacks path next).1
      (mailop.bases path next)
  | .base mailops, path, next => ⟨rfl, base_flattened mailops path⟩
  | .choose mailops, path, next => by
    obtain ⟨last, leaves, wrapped, perm, perm', flat⟩ :=
      prepareMailops_prepares mailops path 0 [] next
    refine ⟨last, (flat.weaken ?_).perm (perm.trans (by simp)) (perm'.trans (by simp))⟩
    rintro p ⟨j, _, through⟩
    exact (List.prefix_append _ _).trans through
  | .dynamic makeMailop, path, next => prepareOneMailop_flattened (makeMailop ()) path next
  | .dynamicWithNack makeMailop, path, next => by
    obtain ⟨last, flat⟩ := prepareOneMailop_flattened (makeMailop next) path (next + 1)
    exact ⟨last, flat.wrap⟩

theorem prepareMailops_prepares : (mailops : List (Mailop β)) → (path : Path) → (i : Nat) →
    (mailops' : List (Path × β)) → (next : Condvar) →
    Prepares mailops path i next mailops' [] (prepareMailops (taggedFrom mailops path i) mailops' next)
  | [], path, i, mailops', next => ⟨rfl, [], [], .refl _, .refl _, .nil⟩
  | mailop :: rest, path, i, mailops', next => by
    obtain ⟨last, flat⟩ := prepareOneMailop_flattened mailop (path ++ [i]) next
    refine .cons last flat ?_
    simp only [taggedFrom, prepareMailops]
    cases prepareOneMailop (mailop.tagged (path ++ [i])) next with
    | mk group next' =>
      cases group with
      | nackfree mailops => exact prepareMailops_prepares rest path (i + 1) _ next'
      | nackfull groups =>
        have others := prepareNackfullMailops_prepares rest path (i + 1)
          (groups ++ [.nackfree mailops']) next'
        simpa [leavesOf, wrappedOf, PreparedMailops.leaves, PreparedMailops.wrapped] using
          others
      | withnack condvar group =>
        simpa [leavesOf, wrappedOf, PreparedMailops.leaves, PreparedMailops.wrapped] using
          prepareNackfullMailops_prepares rest path (i + 1)
            [.withnack condvar group, .nackfree mailops'] next'

theorem prepareNackfullMailops_prepares : (mailops : List (Mailop β)) → (path : Path) →
    (i : Nat) → (results : List (PreparedMailops (Path × β))) → (next : Condvar) →
    Prepares mailops path i next (leavesOf results) (wrappedOf results)
      (prepareNackfullMailops (taggedFrom mailops path i) results next)
  | [], path, i, results, next => by
    refine ⟨?_, [], [], ?_, ?_, .nil⟩ <;>
      cases results with
      | nil => simp [taggedFrom, prepareNackfullMailops, nacksFrom, PreparedMailops.leaves,
          PreparedMailops.wrapped]
      | cons result others =>
        cases others <;>
          simp [taggedFrom, prepareNackfullMailops, nacksFrom, leavesOf, wrappedOf,
            PreparedMailops.leaves, PreparedMailops.wrapped]
  | mailop :: rest, path, i, results, next => by
    obtain ⟨last, flat⟩ := prepareOneMailop_flattened mailop (path ++ [i]) next
    refine .cons last flat ?_
    simp only [taggedFrom, prepareNackfullMailops]
    cases prepareOneMailop (mailop.tagged (path ++ [i])) next with
    | mk group next' =>
      have others := fun results => prepareNackfullMailops_prepares rest path (i + 1) results next'
      cases group with
      | nackfull groups =>
        simpa [PreparedMailops.leaves, PreparedMailops.wrapped] using
          others (groups ++ results)
      | withnack condvar group =>
        simpa [leavesOf, wrappedOf] using others (.withnack condvar group :: results)
      | nackfree mailops =>
        cases results with
        | nil => simpa [leavesOf, wrappedOf] using others [.nackfree mailops]
        | cons result results =>
          cases result with
          | nackfree mailops' =>
            simpa [leavesOf, wrappedOf, PreparedMailops.leaves,
              PreparedMailops.wrapped] using
              others (.nackfree (mailops ++ mailops') :: results)
          | nackfull groups =>
            simpa [leavesOf, wrappedOf] using
              others (.nackfree mailops :: .nackfull groups :: results)
          | withnack condvar group =>
            simpa [leavesOf, wrappedOf] using
              others (.nackfree mailops :: .withnack condvar group :: results)

end

end DoOneMailop

/-! The two preparation routines agree. -/

mutual

theorem prepare'_eq : (mailop : Mailop β) → (next : Condvar) →
    BlockUntilMailopFires.prepare' mailop next = DoOneMailop.prepareOneMailop mailop next
  | .base mailops, next => rfl
  | .choose mailops, next => prepareMailops_eq mailops [] next
  | .dynamic makeMailop, next => prepare'_eq (makeMailop ()) next
  | .dynamicWithNack makeMailop, next => by
    simp only [BlockUntilMailopFires.prepare', DoOneMailop.prepareOneMailop,
      prepare'_eq (makeMailop next) (next + 1)]

theorem prepareMailops_eq : (mailops : List (Mailop β)) → (mailops' : List β) →
    (next : Condvar) → BlockUntilMailopFires.prepareMailops mailops mailops' next =
      DoOneMailop.prepareMailops mailops mailops' next
  | [], mailops', next => rfl
  | mailop :: rest, mailops', next => by
    simp only [BlockUntilMailopFires.prepareMailops, DoOneMailop.prepareMailops,
      prepare'_eq mailop next]
    split
    · exact prepareMailops_eq rest _ _
    · exact prepareNackfullMailops_eq rest _ _
    · exact prepareNackfullMailops_eq rest _ _

theorem prepareNackfullMailops_eq : (mailops : List (Mailop β)) →
    (results : List (PreparedMailops β)) → (next : Condvar) →
    BlockUntilMailopFires.prepareNackfullMailops mailops results next =
      DoOneMailop.prepareNackfullMailops mailops results next
  | [], [], next => rfl
  | [], [_], next => rfl
  | [], _ :: _ :: _, next => rfl
  | mailop :: rest, results, next => by
    simp only [BlockUntilMailopFires.prepareNackfullMailops,
      DoOneMailop.prepareNackfullMailops, prepare'_eq mailop next]
    split
    · exact prepareNackfullMailops_eq rest _ _
    · exact prepareNackfullMailops_eq rest _ _
    · exact prepareNackfullMailops_eq rest _ _

end

theorem prepare_eq (mailop : Mailop β) (next : Condvar) :
    BlockUntilMailopFires.prepare mailop next = DoOneMailop.prepareOneMailop mailop next := by
  cases mailop with
  | base mailops => rfl
  | choose mailops => exact prepare'_eq _ next
  | dynamic makeMailop => exact prepare'_eq _ next
  | dynamicWithNack makeMailop => exact prepare'_eq _ next

mutual

theorem nacks_condvars : (mailop : Mailop β) → (path : Path) → (next : Condvar) → ∃ n,
    (mailop.nacks path next).1.map Prod.snd = List.range' next n ∧
    (mailop.nacks path next).2 = next + n
  | .base _, _, next => ⟨0, rfl, rfl⟩
  | .choose mailops, path, next => nacksFrom_condvars mailops path 0 next
  | .dynamic makeMailop, path, next => nacks_condvars (makeMailop ()) path next
  | .dynamicWithNack makeMailop, path, next => by
    obtain ⟨n, made, last⟩ := nacks_condvars (makeMailop next) path (next + 1)
    refine ⟨n + 1, ?_, ?_⟩
    · simp [Mailop.nacks, made, List.range'_succ]
    · simp only [Mailop.nacks, last]
      rw [Nat.add_assoc, Nat.add_comm 1]

theorem nacksFrom_condvars : (mailops : List (Mailop β)) → (path : Path) → (i : Nat) →
    (next : Condvar) → ∃ n,
    (nacksFrom mailops path i next).1.map Prod.snd = List.range' next n ∧
    (nacksFrom mailops path i next).2 = next + n
  | [], _, _, next => ⟨0, rfl, rfl⟩
  | mailop :: rest, path, i, next => by
    obtain ⟨n, made, last⟩ := nacks_condvars mailop (path ++ [i]) next
    obtain ⟨n', made', last'⟩ := nacksFrom_condvars rest path (i + 1) (next + n)
    refine ⟨n + n', ?_, ?_⟩
    · simp only [nacksFrom, List.map_append, made, last, made', List.range'_append_1]
    · simp only [nacksFrom, last, last', Nat.add_assoc]

end

structure GatheredFor (mailops : List (Mailop β)) (first next : Condvar)
    (places : List ((Path × β) × Flag)) (nackstates : List Nackstate) : Prop where
  made : first ≤ next
  bases : (places.map Prod.fst).Perm (basesFrom mailops [] 0 first)
  bounds : ∀ nackstate ∈ nackstates, first ≤ nackstate.1 ∧ nackstate.1 < next
  nodup : (nackstates.map Prod.fst).Nodup
  covers : ∀ nack ∈ (nacksFrom mailops [] 0 first).1, ∃ flags, (nack.2, flags) ∈ nackstates ∧
    ∀ placed ∈ places, placed.2 ∈ flags ↔ nack.1 <+: placed.1.1

theorem GatheredFor.of_flattened {mailops : List (Mailop β)} {first next : Condvar}
    {leaves : List (Path × β)} {wrapped : List (Condvar × List (Path × β))}
    {places : List ((Path × β) × Flag)} {nackstates : List Nackstate}
    {under : Path → Prop} {g g' : Gathered (Path × β)}
    (last : next = (nacksFrom mailops [] 0 first).2)
    (flat : Flattened under leaves wrapped (nacksFrom mailops [] 0 first).1
      (basesFrom mailops [] 0 first)) (gathers : Gathers leaves wrapped g g' places nackstates) :
    GatheredFor mailops first next places nackstates := by
  obtain ⟨n, condvars, end'⟩ := nacksFrom_condvars mailops [] 0 first
  have perm : (nackstates.map Prod.fst).Perm (List.range' first n) :=
    condvars ▸ gathers.condvars.trans flat.condvars
  subst last
  rw [end']
  refine ⟨Nat.le_add_right _ _, gathers.perm.trans flat.bases, ?_, ?_, ?_⟩
  · intro nackstate member
    simpa [List.mem_range'_1] using perm.mem_iff.mp (List.mem_map_of_mem member)
  · exact perm.nodup_iff.mpr (List.nodup_range' ..)
  · intro nack member
    obtain ⟨w, found, inside⟩ := flat.nacks nack member
    obtain ⟨flags, state, only, all⟩ := gathers.covers (nack.2, w) found
    refine ⟨flags, state, fun placed placed' => ?_⟩
    have leaf : placed.1 ∈ leaves :=
      gathers.perm.mem_iff.mp (List.mem_map_of_mem placed')
    rw [← inside placed.1 leaf]
    constructor
    · exact only placed placed'
    · intro wrapped'
      obtain ⟨flag, flagged, placed''⟩ := all placed.1 wrapped'
      have unique : ((places.map Prod.fst).map Prod.fst).Nodup :=
        (gathers.perm.map Prod.fst).nodup_iff.mpr flat.nodup
      have same : placed = (placed.1, flag) :=
        List.inj_on_of_nodup_map unique.of_map placed' placed'' rfl
      rw [same]
      exact flagged

theorem gatherPrepared_gathers (group : PreparedMailops β) : ∃ g g',
    Gathers group.leaves group.wrapped g g' (gatherPrepared group).1 (gatherPrepared group).2 := by
  cases group with
  | nackfree mailops =>
    let places := mailops.map fun mailop => (mailop, unWrappedFlag)
    refine ⟨⟨[], [], [], 0⟩, ⟨places, [], [], 0⟩, ?_, rfl, Nat.le_refl _, ?_, .refl _, ?_,
      by simp [gatherPrepared], by simp [PreparedMailops.wrapped]⟩
    · simp [gatherPrepared, places]
    · simp [gatherPrepared, PreparedMailops.leaves, Function.comp_def]
    · intro placed member
      obtain ⟨mailop, _, rfl⟩ := List.mem_map.mp member
      exact .inl rfl
  | nackfull groups => exact gatherBaseMailopsAndNackstates_gathers _
  | withnack condvar group => exact gatherBaseMailopsAndNackstates_gathers _

theorem doOneMailop_gathered (mailops : List (Mailop β)) (first : Condvar) :
    GatheredFor mailops first (DoOneMailop.prepareMailops (taggedFrom mailops [] 0) [] first).2
      (gatherPrepared (DoOneMailop.prepareMailops (taggedFrom mailops [] 0) [] first).1).1
      (gatherPrepared (DoOneMailop.prepareMailops (taggedFrom mailops [] 0) [] first).1).2 := by
  obtain ⟨last, leaves, wrapped, perm, perm', flat⟩ :=
    DoOneMailop.prepareMailops_prepares mailops [] 0 [] first
  obtain ⟨g, g', gathers⟩ :=
    gatherPrepared_gathers (DoOneMailop.prepareMailops (taggedFrom mailops [] 0) [] first).1
  exact .of_flattened last
    (flat.perm (perm.trans (by simp)) (perm'.trans (by simp))) gathers

theorem blockUntilMailopFires_gathered (mailop : Mailop β) (first : Condvar) :
    GatheredFor [mailop] first (BlockUntilMailopFires.prepare (mailop.tagged [0]) first).2
      (gatherPrepared (BlockUntilMailopFires.prepare (mailop.tagged [0]) first).1).1
      (gatherPrepared (BlockUntilMailopFires.prepare (mailop.tagged [0]) first).1).2 := by
  rw [prepare_eq]
  obtain ⟨last, flat⟩ := DoOneMailop.prepareOneMailop_flattened mailop [0] first
  obtain ⟨g, g', gathers⟩ :=
    gatherPrepared_gathers (DoOneMailop.prepareOneMailop (mailop.tagged [0]) first).1
  have whole : Flattened ([0] <+: ·) (DoOneMailop.prepareOneMailop (mailop.tagged [0]) first).1.leaves
      (DoOneMailop.prepareOneMailop (mailop.tagged [0]) first).1.wrapped
      (nacksFrom [mailop] [] 0 first).1 (basesFrom [mailop] [] 0 first) := by
    simpa [nacksFrom, basesFrom] using flat
  exact .of_flattened (by simp [nacksFrom, last]) whole gathers

end Threadkit
