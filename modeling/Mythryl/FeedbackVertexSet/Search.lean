import Mythryl.FeedbackVertexSet.Compute

/-! # The branch-and-bound search -/

namespace Mythryl.ComputeMinimumFeedbackVertexSetOfDigraph

open FeedbackVertexSet

variable {E : Vertex → Vertex → Prop} {U C : VertexSet} {g : Graph}

def Sound (E : Vertex → Vertex → Prop) (solve : Int → Graph → Outcome (Option VertexSet)) : Prop :=
  ∀ {U g} limit, (∀ v ∈ U, ¬E v v) → Shows E U g →
    ∃ r, solve limit g = .ok r ∧ ∀ S, r = some S → Feeds E U S ∧ (S.card : Int) ≤ max limit 0

def Affords (solve : Int → Graph → Outcome (Option VertexSet)) (g : Graph) (b : Nat) : Prop :=
  ∀ limit : Int, b ≤ limit → ∃ S, solve limit g = .ok (some S) ∧ S.card ≤ b

theorem Shows.prune {l r : List Node} {x : Vertex} {e : VertexSet}
    (shows_ : Shows E C (l ++ (x, e) :: r)) : Shows E (C.erase x) ((l ++ r).map (prune x)) := by
  have perm : (l ++ (x, e) :: r).Perm ((x, e) :: (l ++ r)) := List.perm_middle
  have nodup : (x :: (l ++ r).map Prod.fst).Nodup := ((perm.map Prod.fst).nodup_iff).mp shows_.nodup
  have keys : ((l ++ r).map (ComputeMinimumFeedbackVertexSetOfDigraph.prune x)).map Prod.fst =
      (l ++ r).map Prod.fst := by
    simp [ComputeMinimumFeedbackVertexSetOfDigraph.prune, Function.comp_def]
  obtain ⟨absent, nodup⟩ := List.nodup_cons.mp nodup
  constructor
  case nodup => rwa [keys]
  case vertices =>
    rw [keys, ← shows_.vertices]
    ext v
    by_cases same : v = x
    · subst same
      simpa using absent
    · simp [same]
  case edges =>
    intro v e' mem w
    obtain ⟨⟨v', f⟩, member, same⟩ := List.mem_map.mp mem
    cases same
    have edges := shows_.edges v' f (perm.mem_iff.mpr (.tail _ member)) w
    rw [Finset.mem_erase, edges, Finset.mem_erase, and_assoc]

def Best (E : Vertex → Vertex → Prop) (C : VertexSet) (most : Int) : Option VertexSet → Int → Prop
  | none, lim => lim = most ∧ 1 ≤ most
  | some S, lim => Feeds E C S ∧ (S.card : Int) = lim + 1 ∧ 0 ≤ lim ∧ (S.card : Int) ≤ most

def Tried (left : List Node) (e : VertexSet) : Prop := ¬(¬left.isEmpty ∧ e.card = 1)

section Trying

variable {solve : Int → Graph → Outcome (Option VertexSet)} {best : Option VertexSet}
  {most lim : Int} {left right : List Node} {x : Vertex} {e : VertexSet}

theorem Best.better {vs : VertexSet} (known : Best E C most best lim) (inside : x ∈ C)
    (feeds : Feeds E (C.erase x) vs) (less : (vs.card : Int) ≤ max (lim - 1) 0) :
    Best E C most (some (insert x vs)) vs.card ∧
      ∀ S, best = some S → (insert x vs).card ≤ S.card := by
  have absent : x ∉ vs := fun mem => Finset.notMem_erase x C (feeds.subset mem)
  have card : (insert x vs).card = vs.card + 1 := Finset.card_insert_of_notMem absent
  cases best with
  | none =>
    obtain ⟨rfl, pos⟩ := known
    refine ⟨⟨feeds.insert inside, by omega, by omega, by omega⟩, fun S none => nomatch none⟩
  | some S =>
    obtain ⟨-, same, nonneg, bound⟩ := known
    refine ⟨⟨feeds.insert inside, by omega, by omega, by omega⟩, ?_⟩
    intro S' equal
    cases equal
    omega

theorem tryF_cons (solve : Int → Graph → Outcome (Option VertexSet)) (best : Option VertexSet)
    (lim : Int) (tried : Tried left e) :
    tryF solve best lim left ((x, e) :: right) = (do
      match ← solve (lim - 1) ((left.reverse ++ right).map (prune x)) with
      | some vs => tryF solve (some (insert x vs)) vs.card ((x, e) :: left) right
      | none => tryF solve best lim ((x, e) :: left) right) := by
  rw [tryF, if_neg tried, List.reverseAux_eq] <;> rfl

theorem tryF_spec (sound : Sound E solve) (loopless : ∀ v ∈ C, ¬E v v)
    (shows_ : Shows E C (left.reverse ++ right)) (known : Best E C most best lim) :
    ∃ r, tryF solve best lim left right = .ok r ∧ (∃ lim', Best E C most r lim') ∧
      ∀ S, best = some S → ∃ S', r = some S' ∧ S'.card ≤ S.card := by
  induction right generalizing best lim left with
  | nil => exact ⟨best, rfl, ⟨lim, known⟩, fun S same => ⟨S, same, le_rfl⟩⟩
  | cons node right ih =>
    obtain ⟨x, e⟩ := node
    have next : Shows E C (((x, e) :: left).reverse ++ right) := by simpa using shows_
    by_cases tried : Tried left e
    · have inside : x ∈ C := shows_.mem_iff.mpr ⟨e, by simp⟩
      obtain ⟨r, found, feeds⟩ := sound (lim - 1)
        (fun v mem => loopless v (Finset.mem_of_mem_erase mem)) shows_.prune
      rw [tryF_cons solve best lim tried, found]
      cases r with
      | none => exact ih next known
      | some vs =>
        obtain ⟨feeds, less⟩ := feeds vs rfl
        obtain ⟨known', smaller⟩ := known.better inside feeds less
        obtain ⟨r, result, known', kept⟩ := ih next known'
        refine ⟨r, result, known', fun S same => ?_⟩
        obtain ⟨S', found', less'⟩ := kept _ rfl
        exact ⟨S', found', less'.trans (smaller S same)⟩
    · rw [tryF, if_pos (not_not.mp tried)]
      exact ih next known

theorem tryF_affords (sound : Sound E solve) (loopless : ∀ v ∈ C, ¬E v v) {before after : List Node}
    (shows_ : Shows E C (left.reverse ++ (before ++ (x, e) :: after)))
    (known : Best E C most best lim) {b : Nat} (pos : 1 ≤ b) (enough : (b : Int) ≤ most)
    (tried : Tried (before.reverse ++ left) e)
    (affords : ∀ g', Shows E (C.erase x) g' → Affords solve g' (b - 1)) :
    ∃ S, tryF solve best lim left (before ++ (x, e) :: after) = .ok (some S) ∧ S.card ≤ b := by
  have done : ∀ {best lim left right S}, Shows E C (left.reverse ++ right) →
      Best E C most (best : Option VertexSet) lim → best = some S → S.card ≤ b →
      ∃ S', tryF solve best lim left right = .ok (some S') ∧ S'.card ≤ b := by
    intro best lim left right S shows_ known same less
    obtain ⟨r, result, -, kept⟩ := tryF_spec sound loopless shows_ known
    obtain ⟨S', rfl, less'⟩ := kept S same
    exact ⟨S', result, less'.trans less⟩
  induction before generalizing best lim left with
  | nil =>
    have tried : Tried left e := tried
    have next : Shows E C (((x, e) :: left).reverse ++ after) := by simpa using shows_
    have inside : x ∈ C := shows_.mem_iff.mpr ⟨e, by simp⟩
    by_cases short : (b : Int) ≤ lim
    · obtain ⟨r, found, feeds⟩ := sound (lim - 1)
        (fun v mem => loopless v (Finset.mem_of_mem_erase mem)) shows_.prune
      obtain ⟨vs, found', less⟩ := affords _ shows_.prune (lim - 1) (by omega)
      cases found.symm.trans found'
      obtain ⟨feeds, within⟩ := feeds vs rfl
      rw [List.nil_append, tryF_cons solve best lim tried, found']
      have card := Finset.card_insert_le x vs
      exact done next (known.better inside feeds within).1 rfl (by omega)
    · cases best with
      | none =>
        obtain ⟨rfl, -⟩ := known
        exact absurd enough short
      | some S =>
        obtain ⟨-, same, -, -⟩ := id known
        exact done shows_ known rfl (by omega)
  | cons node before ih =>
    obtain ⟨y, f⟩ := node
    have next : Shows E C (((y, f) :: left).reverse ++ (before ++ (x, e) :: after)) := by
      simpa using shows_
    have tried' : Tried (before.reverse ++ (y, f) :: left) e := by simpa using tried
    rw [List.cons_append] at shows_ ⊢
    by_cases tried : Tried left f
    · have inside : y ∈ C := shows_.mem_iff.mpr ⟨f, by simp⟩
      obtain ⟨r, found, feeds⟩ := sound (lim - 1)
        (fun v mem => loopless v (Finset.mem_of_mem_erase mem)) shows_.prune
      rw [tryF_cons solve best lim tried, found]
      cases r with
      | none => exact ih next known tried'
      | some vs =>
        obtain ⟨feeds, less⟩ := feeds vs rfl
        exact ih next (known.better inside feeds less).1 tried'
    · rw [tryF, if_pos (not_not.mp tried)]
      exact ih next known tried'

end Trying

theorem try'_best {limit : Int} {c : Graph} (shows_ : Shows E C c) (pos : 1 ≤ limit)
    (some_ : 1 ≤ C.card) : Best E C (min limit c.length) none (min limit c.length) := by
  rw [shows_.length_eq]
  exact ⟨rfl, by omega⟩

theorem try'_sound {solve : Int → Graph → Outcome (Option VertexSet)} (sound : Sound E solve)
    (loopless : ∀ v ∈ C, ¬E v v) {c : Graph} (shows_ : Shows E C c) (some_ : 1 ≤ C.card)
    {limit : Int} (pos : 1 ≤ limit) :
    ∃ r, try' solve limit c = .ok r ∧ ∀ S, r = some S → Feeds E C S ∧ (S.card : Int) ≤ limit := by
  have start : Shows E C (List.reverse [] ++ c) := shows_
  obtain ⟨r, result, ⟨lim', known⟩, -⟩ :=
    tryF_spec sound loopless start (try'_best shows_ pos some_)
  refine ⟨r, result, ?_⟩
  rintro S rfl
  obtain ⟨feeds, -, -, less⟩ := known
  exact ⟨feeds, less.trans (min_le_left ..)⟩

section Components

variable {solve : Int → Graph → Outcome (Option VertexSet)} {parts : List VertexSet}
  {comps : List Graph}

structure Joined (E : Vertex → Vertex → Prop) (parts : List VertexSet) (set S : VertexSet) :
    Prop where
  contains : set ⊆ S
  inside : ∀ v ∈ S, v ∈ set ∨ ∃ C ∈ parts, v ∈ C
  acyclic : ∀ C ∈ parts, Acyclic E (C \ S)

theorem Joined.cons {set vs S : VertexSet} (joined : Joined E parts (vs ∪ set) S)
    (feeds : Feeds E C vs) : Joined E (C :: parts) set S where
  contains := Finset.subset_union_right.trans joined.contains
  inside := by
    intro v mem
    rcases joined.inside v mem with mem | ⟨D, member, mem⟩
    · rcases Finset.mem_union.mp mem with mem | mem
      · exact .inr ⟨C, List.mem_cons_self, feeds.subset mem⟩
      · exact .inl mem
    · exact .inr ⟨D, .tail _ member, mem⟩
  acyclic := by
    intro D mem
    rcases List.mem_cons.mp mem with rfl | member
    · apply feeds.acyclic.mono
      exact Finset.sdiff_subset_sdiff (Finset.Subset.refl D)
        (Finset.subset_union_left.trans joined.contains)
    · exact joined.acyclic D member

theorem feedbG_sound (sound : Sound E solve) (each : List.Forall₂ (Shows E) parts comps)
    (loopless : ∀ C ∈ parts, ∀ v ∈ C, ¬E v v) (some_ : ∀ C ∈ parts, 1 ≤ C.card) (lim : Int)
    (set : VertexSet) : ∃ r, feedbG (try' solve) lim set comps = .ok r ∧
      ∀ S, r = some S → Joined E parts set S ∧ (comps ≠ [] → 1 ≤ lim) ∧
        (S.card : Int) ≤ set.card + max (lim - 1) 0 + comps.length := by
  induction each generalizing lim set with
  | nil =>
    refine ⟨some set, rfl, ?_⟩
    intro S same
    cases same
    refine ⟨⟨Finset.Subset.refl set, fun v mem => .inl mem, by simp⟩, by simp, ?_⟩
    simp only [List.length_nil]
    omega
  | @cons C c parts comps first others ih =>
    obtain ⟨loopless, loopless'⟩ := List.forall_mem_cons.mp loopless
    obtain ⟨some_, some'⟩ := List.forall_mem_cons.mp some_
    rw [feedbG]
    by_cases short : lim ≤ 0
    · rw [if_pos short]
      exact ⟨none, rfl, fun S none => nomatch none⟩
    · obtain ⟨r, found, feeds⟩ := try'_sound sound loopless first some_ (by omega : 1 ≤ lim)
      rw [if_neg short, found]
      cases r with
      | none => exact ⟨none, rfl, fun S none => nomatch none⟩
      | some vs =>
        obtain ⟨feeds, less⟩ := feeds vs rfl
        obtain ⟨r, result, joined⟩ := ih loopless' some' (lim - vs.card + 1) (vs ∪ set)
        refine ⟨r, result, fun S same => ?_⟩
        obtain ⟨joined, -, card⟩ := joined S same
        have union := Finset.card_union_le vs set
        refine ⟨joined.cons feeds, fun _ => by omega, ?_⟩
        rw [List.length_cons]
        omega

theorem feedbG_affords (budget : VertexSet → Nat)
    (each : List.Forall₂ (fun C c => Affords (try' solve) c (budget C) ∧ 1 ≤ budget C) parts comps)
    (lim : Int) (set : VertexSet) (enough : (parts.map budget).sum - parts.length + 1 ≤ lim) :
    ∃ S, feedbG (try' solve) lim set comps = .ok (some S) ∧
      S.card ≤ set.card + (parts.map budget).sum := by
  induction each generalizing lim set with
  | nil => exact ⟨set, rfl, by simp⟩
  | @cons C c parts comps first others ih =>
    obtain ⟨affords, pos⟩ := first
    have others_pos : parts.length ≤ (parts.map budget).sum := by
      clear ih enough
      induction others with
      | nil => simp
      | cons head tail ih =>
        simp only [List.length_cons, List.map_cons, List.sum_cons]
        omega
    simp only [List.map_cons, List.sum_cons, List.length_cons] at enough ⊢
    obtain ⟨vs, found, less⟩ := affords lim (by omega)
    have union := Finset.card_union_le vs set
    obtain ⟨S, result, card⟩ := ih (lim - vs.card + 1) (vs ∪ set) (by omega)
    refine ⟨S, ?_, by omega⟩
    rw [feedbG, if_neg (by omega), found]
    exact result

end Components

theorem part_nonempty (part : Component E U C) : 1 ≤ C.card := part.feeds_nonempty (feeds_all C)

theorem feedb_succ {depth : Nat} {comps : List Graph} (components : scc g = .ok comps)
    (limit : Int) : feedb (depth + 1) limit g =
      feedbG (try' (feedb depth)) (limit - comps.length + 1) ∅ comps := by
  rw [feedb, components]
  rfl

theorem feedb_sound (E : Vertex → Vertex → Prop) (depth : Nat) : Sound E (feedb depth) := by
  induction depth with
  | zero =>
    intro U g limit loopless shows_
    rw [feedb]
    split
    · rename_i enough
      refine ⟨some (l2s (g.map Prod.fst)), rfl, ?_⟩
      intro S same
      cases same
      rw [shows_.vertices]
      rw [shows_.length_eq] at enough
      exact ⟨feeds_all U, by omega⟩
    · exact ⟨none, rfl, fun S none => nomatch none⟩
  | succ depth ih =>
    intro U g limit loopless shows_
    obtain ⟨comps, parts, components, each, split⟩ := shows_.scc loopless
    obtain ⟨r, result, joined⟩ := feedbG_sound ih each
      (fun C mem v inside => loopless v ((split.part C mem).subset inside))
      (fun C mem => part_nonempty (split.part C mem)) (limit - comps.length + 1) ∅
    rw [feedb_succ components]
    refine ⟨r, result, fun S same => ?_⟩
    obtain ⟨joined, some_, card⟩ := joined S same
    refine ⟨⟨?_, split.acyclic joined.acyclic⟩, ?_⟩
    · intro v mem
      rcases joined.inside v mem with empty | ⟨C, member, inside⟩
      · exact absurd empty (Finset.notMem_empty v)
      · exact (split.part C member).subset inside
    · rw [Finset.card_empty] at card
      cases comps with
      | nil => simpa using card
      | cons c comps =>
        have room := some_ (List.cons_ne_nil c comps)
        omega

theorem feedb_affords {depth : Nat} (loopless : ∀ v ∈ U, ¬E v v) (shows_ : Shows E U g)
    {S : VertexSet} (feeds : Feeds E U S)
    (each : ∀ C c, Component E U C → Shows E C c → Affords (try' (feedb depth)) c (S ∩ C).card) :
    Affords (feedb (depth + 1)) g S.card := by
  intro limit enough
  obtain ⟨comps, parts, components, shown, split⟩ := shows_.scc loopless
  have length := shown.length_eq
  have sum : (parts.map fun C : VertexSet => (S ∩ C).card).sum ≤ S.card :=
    sum_card_inter split.disjoint S
  have budgets : List.Forall₂ (fun (C : VertexSet) c =>
      Affords (try' (feedb depth)) c (S ∩ C).card ∧ 1 ≤ (S ∩ C).card) parts comps := by
    apply List.Forall₂.imp ?_ ((List.forall₂_and_left _ _).mpr ⟨split.part, shown⟩)
    intro C c both
    exact ⟨each C c both.1 both.2, both.1.feeds_nonempty (feeds.inter both.1.subset)⟩
  obtain ⟨S', result, card⟩ :=
    feedbG_affords (fun C => (S ∩ C).card) budgets (limit - comps.length + 1) ∅ (by omega)
  refine ⟨S', ?_, ?_⟩
  · rw [feedb_succ components]
    exact result
  · rw [Finset.card_empty] at card
    omega

theorem feedb_whole (depth : Nat) (loopless : ∀ v ∈ U, ¬E v v) (shows_ : Shows E U g) :
    Affords (feedb depth) g U.card := by
  induction depth generalizing U g with
  | zero =>
    intro limit enough
    rw [← shows_.length_eq] at enough
    refine ⟨U, ?_, le_rfl⟩
    rw [feedb, if_pos enough, shows_.vertices]
    rfl
  | succ depth ih =>
    apply feedb_affords loopless shows_ (feeds_all U)
    intro C c part shown limit enough
    rw [Finset.inter_eq_right.mpr part.subset] at enough ⊢
    have loopless : ∀ v ∈ C, ¬E v v := fun v mem => loopless v (part.subset mem)
    have some_ := part_nonempty part
    have length := shown.length_eq
    cases c with
    | nil => simp at length; omega
    | cons node right =>
      obtain ⟨x, e⟩ := node
      have start : Shows E C (List.reverse [] ++ ([] ++ (x, e) :: right)) := shown
      have inside : x ∈ C := shown.mem_iff.mpr ⟨e, by simp⟩
      apply tryF_affords (feedb_sound E depth) loopless start
        (try'_best shown (by omega) some_) some_ (by omega) (by simp [Tried])
      intro g' shows'
      rw [← Finset.card_erase_of_mem inside]
      exact ih (fun v mem => loopless v (Finset.mem_of_mem_erase mem)) shows'

/-! # Feedback vertex sets, minimum where the depth allows -/

open Relation

section Depth

variable {E : Vertex → Vertex → Prop} {U C : VertexSet} {g : Graph}

theorem Shows.card_eq_one (shows_ : Shows E C g) {x : Vertex} {e : VertexSet} (mem : (x, e) ∈ g) :
    e.card = 1 ↔ ∃ y, OnlyTo E C x y := by
  rw [Finset.card_eq_one]
  apply exists_congr
  intro y
  rw [Finset.ext_iff]
  apply forall_congr'
  intro w
  rw [shows_.edges x e mem w, Finset.mem_singleton]

theorem Shows.tried (shows_ : Shows E C g) (loopless : ∀ v ∈ C, ¬E v v) (part : Component E U C)
    {S : VertexSet} (feeds : Feeds E C S) :
    ∃ S' x e before after, Feeds E C S' ∧ S'.card ≤ S.card ∧ x ∈ S' ∧
      g = before ++ (x, e) :: after ∧ Tried (before.reverse ++ []) e := by
  cases g with
  | nil =>
    have some_ := part_nonempty part
    rw [← shows_.length_eq] at some_
    exact absurd some_ (Nat.not_succ_le_zero 0)
  | cons node right =>
    obtain ⟨first, e⟩ := node
    have inside : first ∈ C := shows_.mem_iff.mpr ⟨e, List.mem_cons_self⟩
    obtain ⟨S', x, feeds', less, mem, choice⟩ := part.feeds_chosen loopless inside feeds
    rcases choice with rfl | several
    · exact ⟨S', x, e, [], right, feeds', less, mem, rfl, by simp [Tried]⟩
    · obtain ⟨f, listed⟩ := shows_.mem_iff.mp (feeds'.subset mem)
      obtain ⟨before, after, split⟩ := List.append_of_mem listed
      refine ⟨S', x, f, before, after, feeds', less, mem, split, ?_⟩
      exact fun skipped => several ((shows_.card_eq_one listed).mp skipped.2)

theorem feedb_exact {depth : Nat} (pos : 1 ≤ depth) (loopless : ∀ v ∈ U, ¬E v v)
    (shows_ : Shows E U g) (small : ∀ C, Component E U C → ∃ S, Feeds E C S ∧ S.card < depth)
    {S : VertexSet} (feeds : Feeds E U S) : Affords (feedb depth) g S.card := by
  induction depth generalizing U g S with
  | zero => exact absurd pos (Nat.not_succ_le_zero 0)
  | succ depth ih =>
    apply feedb_affords loopless shows_ feeds
    intro C c part shown limit enough
    have loopless : ∀ v ∈ C, ¬E v v := fun v mem => loopless v (part.subset mem)
    obtain ⟨T, feedsT, lessT, shallow⟩ : ∃ T, Feeds E C T ∧ T.card ≤ (S ∩ C).card ∧
        T.card < depth + 1 := by
      obtain ⟨S₁, feeds₁, shallow⟩ := small C part
      by_cases less : S₁.card ≤ (S ∩ C).card
      · exact ⟨S₁, feeds₁, less, shallow⟩
      · exact ⟨S ∩ C, feeds.inter part.subset, le_rfl, by omega⟩
    obtain ⟨S', x, e, before, after, feeds', less, mem, rfl, tried⟩ :=
      shown.tried loopless part feedsT
    have some_ := part.feeds_nonempty feeds'
    have erased := Finset.card_erase_of_mem mem
    have within := Finset.card_le_card feeds'.subset
    have length := shown.length_eq
    have start : Shows E C (List.reverse [] ++ (before ++ (x, e) :: after)) := shown
    obtain ⟨S'', result, card⟩ := tryF_affords (feedb_sound E depth) loopless start
      (try'_best shown (show 1 ≤ limit by omega) (part_nonempty part)) some_ (by omega) tried (by
        intro g' shows'
        rw [← erased]
        apply ih (by omega) (fun v mem => loopless v (Finset.mem_of_mem_erase mem)) shows' ?_
          (feeds'.erase x)
        intro D inner
        have meet := Finset.card_le_card (Finset.inter_subset_left : S'.erase x ∩ D ⊆ S'.erase x)
        exact ⟨_, (feeds'.erase x).inter inner.subset, by omega⟩)
    exact ⟨S'', result, by omega⟩

end Depth

section Whole

variable (graph0 : List (Vertex × List Vertex))

def vertices : VertexSet := l2s (graph0.map Prod.fst)

def HasEdge (v w : Vertex) : Prop := ∃ e, (v, e) ∈ graph0 ∧ w ∈ e

instance (v w : Vertex) : Decidable (HasEdge graph0 v w) :=
  decidable_of_iff (∃ node ∈ graph0, node.1 = v ∧ w ∈ node.2) (by
    constructor
    · rintro ⟨⟨v, e⟩, mem, rfl, inside⟩
      exact ⟨e, mem, inside⟩
    · rintro ⟨e, mem, inside⟩
      exact ⟨(v, e), mem, rfl, inside⟩)

def selfvertices : VertexSet := (vertices graph0).filter fun v => HasEdge graph0 v v

def others : VertexSet := (vertices graph0).filter fun v => ¬HasEdge graph0 v v

variable {graph0}

theorem vertices_eq : vertices graph0 = selfvertices graph0 ∪ others graph0 :=
  (Finset.filter_union_filter_not_eq _ _).symm

theorem selfvertices_disjoint : Disjoint (selfvertices graph0) (others graph0) :=
  Finset.disjoint_filter_filter_not _ _ _

theorem others_loopless : ∀ v ∈ others graph0, ¬HasEdge graph0 v v := fun _ mem =>
  (Finset.mem_filter.mp mem).2

theorem feeds_iff {S : VertexSet} (sub : S ⊆ vertices graph0) :
    Feeds (HasEdge graph0) (vertices graph0) S ↔
      selfvertices graph0 ⊆ S ∧ Feeds (HasEdge graph0) (others graph0) (S ∩ others graph0) := by
  constructor
  · intro feeds
    refine ⟨fun v mem => ?_, feeds.inter (Finset.filter_subset ..)⟩
    obtain ⟨inside, loop⟩ := Finset.mem_filter.mp mem
    by_contra absent
    have left := Finset.mem_sdiff.mpr ⟨inside, absent⟩
    exact feeds.acyclic v (.single ⟨left, left, loop⟩)
  · rintro ⟨contains, feeds⟩
    refine ⟨sub, feeds.acyclic.mono ?_⟩
    intro v mem
    obtain ⟨inside, absent⟩ := Finset.mem_sdiff.mp mem
    have other : v ∈ others graph0 :=
      Finset.mem_filter.mpr ⟨inside, fun loop => absent (contains (Finset.mem_filter.mpr ⟨inside, loop⟩))⟩
    exact Finset.mem_sdiff.mpr ⟨other, fun both => absent (Finset.mem_inter.mp both).1⟩

variable {v : Vertex}

theorem hasEdge_iff (distinct : (graph0.map Prod.fst).Nodup) {w : Vertex} {e : List Vertex}
    (mem : (v, e) ∈ graph0) : HasEdge graph0 v w ↔ w ∈ e := by
  constructor
  · rintro ⟨e', mem', inside⟩
    have same : (v, e') = (v, e) := List.inj_on_of_nodup_map distinct mem' mem rfl
    cases same
    exact inside
  · exact fun inside => ⟨e, mem, inside⟩

theorem mem_nodes (p : Node → Bool) :
    v ∈ l2s (((graph0.map fun (v, e) => (v, l2s e)).filter p).map Prod.fst) ↔
      ∃ e, (v, e) ∈ graph0 ∧ p (v, l2s e) := by
  simp

theorem hasSelfLoop_iff (distinct : (graph0.map Prod.fst).Nodup) {e : List Vertex}
    (mem : (v, e) ∈ graph0) : hasSelfLoop (v, l2s e) = true ↔ HasEdge graph0 v v := by
  rw [hasEdge_iff distinct mem]
  simp [hasSelfLoop]

theorem mem_vertices : v ∈ vertices graph0 ↔ ∃ e, (v, e) ∈ graph0 := by
  simp [vertices]

theorem selfnodes_eq (distinct : (graph0.map Prod.fst).Nodup) :
    l2s (((graph0.map fun (v, e) => (v, l2s e)).filter hasSelfLoop).map Prod.fst) =
      selfvertices graph0 := by
  ext v
  rw [mem_nodes, selfvertices, Finset.mem_filter, mem_vertices, ← exists_and_right]
  apply exists_congr
  intro e
  exact and_congr_right fun mem => hasSelfLoop_iff distinct mem

theorem othernodes_eq (distinct : (graph0.map Prod.fst).Nodup) :
    l2s (((graph0.map fun (v, e) => (v, l2s e)).filter fun node => !hasSelfLoop node).map Prod.fst) =
      others graph0 := by
  ext v
  rw [mem_nodes, others, Finset.mem_filter, mem_vertices, ← exists_and_right]
  apply exists_congr
  intro e
  apply and_congr_right
  intro mem
  rw [Bool.not_eq_true', ← Bool.not_eq_true, hasSelfLoop_iff distinct mem]

def rest (graph0 : List (Vertex × List Vertex)) : Graph :=
  normalize ((graph0.map fun (v, e) => (v, l2s e)).filter fun node => !hasSelfLoop node)

theorem shows_rest (distinct : (graph0.map Prod.fst).Nodup) :
    Shows (HasEdge graph0) (others graph0) (rest graph0) := by
  rw [← othernodes_eq distinct]
  apply shows_normalize
  · have keys : (graph0.map fun (v, e) => (v, l2s e)).map Prod.fst = graph0.map Prod.fst := by
      simp [Function.comp_def]
    rw [← keys] at distinct
    exact distinct.sublist (List.filter_sublist.map _)
  · intro v e mem w _
    obtain ⟨⟨v', e'⟩, member, same⟩ := List.mem_map.mp (List.mem_filter.mp mem).1
    cases same
    rw [hasEdge_iff distinct member, mem_l2s]

end Whole

/-- The function ends for every graph, and returns a feedback vertex set that contains
the vertices with loops; it is a minimum one where every component of the rest has one of fewer
vertices than the depth. -/
theorem feedback_vertex_set {graph0 : List (Vertex × List Vertex)}
    (distinct : (graph0.map Prod.fst).Nodup) :
    ∃ result, computeMinimumFeedbackVertexSetOfDigraph graph0 = .ok result ∧ result.Nodup ∧
      (∀ v ∈ selfvertices graph0, v ∈ result) ∧
      Feeds (HasEdge graph0) (vertices graph0) (l2s result) ∧
      ((∀ C, Component (HasEdge graph0) (others graph0) C →
          ∃ S, Feeds (HasEdge graph0) C S ∧ S.card < maxdepth) →
        ∀ S, Feeds (HasEdge graph0) (vertices graph0) S → result.length ≤ S.card) := by
  have shown := shows_rest distinct
  have length := shown.length_eq
  obtain ⟨solution, found, -⟩ := feedb_whole maxdepth others_loopless shown
    (rest graph0).length (by omega)
  obtain ⟨r, found', sound⟩ :=
    feedb_sound (HasEdge graph0) maxdepth (rest graph0).length others_loopless shown
  cases found.symm.trans found'
  obtain ⟨feeds, -⟩ := sound solution rfl
  have result : computeMinimumFeedbackVertexSetOfDigraph graph0 =
      .ok (s2l (selfvertices graph0 ∪ solution)) := by
    have solved : bab (rest graph0) = .ok solution := by
      rw [bab, found]
      rfl
    rw [computeMinimumFeedbackVertexSetOfDigraph, List.partition_eq_filter_filter,
      ← selfnodes_eq distinct]
    change (bab (rest graph0) >>= _) = _
    rw [solved]
    rfl
  have back : l2s (s2l (selfvertices graph0 ∪ solution)) = selfvertices graph0 ∪ solution := by
    ext v
    simp
  have apart : solution ∩ others graph0 = solution := Finset.inter_eq_left.mpr feeds.subset
  refine ⟨_, result, nodup_s2l _, fun v mem => by simp [mem], ?_, ?_⟩
  · rw [back]
    apply (feeds_iff ?_).mpr
    · refine ⟨Finset.subset_union_left, ?_⟩
      rwa [Finset.union_inter_distrib_right, apart,
        Finset.disjoint_iff_inter_eq_empty.mp selfvertices_disjoint, Finset.empty_union]
    · rw [vertices_eq]
      exact Finset.union_subset_union (Finset.Subset.refl _) feeds.subset
  · intro small S feedsS
    obtain ⟨contains, inner⟩ := (feeds_iff feedsS.subset).mp feedsS
    have within := Finset.card_le_card inner.subset
    obtain ⟨solution', found', less⟩ := feedb_exact (by decide) others_loopless shown small inner
      (rest graph0).length (by omega)
    cases found.symm.trans found'
    have disjoint : Disjoint (selfvertices graph0) (S ∩ others graph0) :=
      selfvertices_disjoint.mono_right Finset.inter_subset_right
    have total : (selfvertices graph0 ∪ S ∩ others graph0).card ≤ S.card :=
      Finset.card_le_card (Finset.union_subset contains Finset.inter_subset_left)
    have union := Finset.card_union_le (selfvertices graph0) solution
    rw [Finset.card_union_of_disjoint disjoint] at total
    rw [length_s2l]
    omega

theorem feedback_vertex_set_loop :
    ∃ result, computeMinimumFeedbackVertexSetOfDigraph [(1, [1]), (2, [3]), (3, [1, 2])] =
      .ok result ∧ result.length ≤ 2 := by
  let graph0 : List (Vertex × List Vertex) := [(1, [1]), (2, [3]), (3, [1, 2])]
  obtain ⟨result, found, -, -, -, minimum⟩ :=
    feedback_vertex_set (by decide : (graph0.map Prod.fst).Nodup)
  have alone : ∀ v ∈ vertices graph0 \ {1, 2}, ∀ w ∈ vertices graph0 \ {1, 2},
      ¬HasEdge graph0 v w := by
    decide
  have two : Feeds (HasEdge graph0) (vertices graph0) {1, 2} := ⟨by decide, acyclic_of_alone alone⟩
  have small : ∀ C, Component (HasEdge graph0) (others graph0) C →
      ∃ S, Feeds (HasEdge graph0) C S ∧ S.card < maxdepth := by
    intro C part
    have few := Finset.card_le_card part.subset
    have card : (others graph0).card = 2 := by decide
    exact ⟨C, feeds_all C, by rw [maxdepth]; omega⟩
  exact ⟨result, found, minimum small _ two⟩

def complete : List (Vertex × List Vertex) :=
  [(0, [1, 2, 3]), (1, [0, 2, 3]), (2, [0, 1, 3]), (3, [0, 1, 2])]

theorem complete_not_minimum : (complete.map Prod.fst).Nodup ∧
    ¬∃ result, computeMinimumFeedbackVertexSetOfDigraph complete = .ok result ∧
      ∀ S, Feeds (HasEdge complete) (vertices complete) S → result.length ≤ S.card := by
  refine ⟨by decide, ?_⟩
  rintro ⟨result, found, minimum⟩
  have all : computeMinimumFeedbackVertexSetOfDigraph complete = .ok [0, 1, 2, 3] := by
    decide +kernel
  cases found.symm.trans all
  have alone : ∀ v ∈ vertices complete \ {0, 1, 2}, ∀ w ∈ vertices complete \ {0, 1, 2},
      ¬HasEdge complete v w := by
    decide
  have three : Feeds (HasEdge complete) (vertices complete) {0, 1, 2} :=
    ⟨by decide, acyclic_of_alone alone⟩
  exact absurd (minimum _ three) (by decide)

end Mythryl.ComputeMinimumFeedbackVertexSetOfDigraph
