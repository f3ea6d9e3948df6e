import Mathlib.Data.Set.Insert
import Mathlib.Tactic.Common

/-! # Settling by depth-first search -/

namespace Settling

variable {α : Type}

structure Marks (α : Type) where
  visited : Set α
  failed : Set α

def Marks.visit (m : Marks α) (x : α) : Marks α := { m with visited := insert x m.visited }

def Marks.fail (m : Marks α) (x : α) : Marks α := { m with failed := insert x m.failed }

section Definitions

variable (mentions : α → List (Option α))

inductive Spoiled : α → Prop
  | here {x : α} : none ∈ mentions x → Spoiled x
  | through {x y : α} : some y ∈ mentions x → Spoiled y → Spoiled x

inductive Walk : List (Option α) → Marks α → Bool → Marks α → Prop
  | nil {m : Marks α} : Walk [] m false m
  | failure {l : List (Option α)} {m : Marks α} : Walk (none :: l) m true m
  | failed {y : α} {l : List (Option α)} {m : Marks α} : y ∈ m.visited → y ∈ m.failed →
      Walk (some y :: l) m true m
  | seen {y : α} {l : List (Option α)} {m m' : Marks α} {b : Bool} : y ∈ m.visited → y ∉ m.failed →
      Walk l m b m' → Walk (some y :: l) m b m'
  | fails {y : α} {l : List (Option α)} {m m' : Marks α} : y ∉ m.visited →
      Walk (mentions y) (m.visit y) true m' → Walk (some y :: l) m true (m'.fail y)
  | passes {y : α} {l : List (Option α)} {m m' m'' : Marks α} {b : Bool} : y ∉ m.visited →
      Walk (mentions y) (m.visit y) false m' → Walk l m' b m'' → Walk (some y :: l) m b m''

inductive Runs : List α → Marks α → Marks α → Prop
  | nil {m : Marks α} : Runs [] m m
  | cons {x : α} {xs : List α} {b : Bool} {m m' m'' : Marks α} : Walk mentions [some x] m b m' →
      Runs xs m' m'' → Runs (x :: xs) m m''

inductive Falls (settled : Set α) : Set α → List (Option α) → Set α → Prop
  | failure {path : Set α} {l : List (Option α)} : Falls settled path (none :: l) ∅
  | settled {path : Set α} {y : α} {l : List (Option α)} : y ∈ settled →
      Falls settled path (some y :: l) ∅
  | pass {path fallen : Set α} {y : α} {l : List (Option α)} :
      (Spoiled mentions y → y ∈ path) → Falls settled path l fallen →
      Falls settled path (some y :: l) fallen
  | down {path fallen : Set α} {y : α} {l : List (Option α)} : Spoiled mentions y → y ∉ path →
      y ∉ settled → Falls settled (insert y path) (mentions y) fallen →
      Falls settled path (some y :: l) (insert y fallen)

/-- Each spoiled node of the list falls through, when it comes up. -/
inductive Orderly : Set α → List α → Prop
  | nil {settled : Set α} : Orderly settled []
  | sound {settled : Set α} {x : α} {xs : List α} : ¬Spoiled mentions x → Orderly settled xs →
      Orderly settled (x :: xs)
  | spoiled {settled fallen : Set α} {x : α} {xs : List α} : Spoiled mentions x →
      Falls mentions settled ∅ [some x] fallen → Orderly (settled ∪ fallen) xs →
      Orderly settled (x :: xs)

structure Sane (path : Set α) (m : Marks α) : Prop where
  on : path ⊆ m.visited
  failed : m.failed ⊆ m.visited
  apart : ∀ x ∈ path, x ∉ m.failed
  spoiled : ∀ x ∈ m.failed, Spoiled mentions x

def Right (path : Set α) (m : Marks α) : Prop :=
  ∀ x ∈ m.visited, x ∉ path → Spoiled mentions x → x ∈ m.failed

def Obstacle (path : Set α) (l : List (Option α)) : Prop :=
  ∃ o ∈ l, ∀ y, o = some y → Spoiled mentions y ∧ y ∉ path

end Definitions

structure Keeps (m m' : Marks α) : Prop where
  visited : m.visited ⊆ m'.visited
  failed : m.failed ⊆ m'.failed
  old : ∀ x ∈ m.visited, x ∈ m'.failed → x ∈ m.failed

section Searches

variable {mentions : α → List (Option α)} {path settled fallen : Set α} {l : List (Option α)}
  {m m' m'' : Marks α} {b : Bool} {x y : α} {xs : List α}

theorem spoiled_of_obstacle (obstacle : Obstacle mentions path (mentions x)) : Spoiled mentions x := by
  obtain ⟨o, mem, spoiled⟩ := obstacle
  cases o with
  | none => exact .here mem
  | some y => exact .through mem (spoiled y rfl).1

theorem obstacle_cons (passed : Spoiled mentions y → y ∈ path) :
    Obstacle mentions path (some y :: l) ↔ Obstacle mentions path l := by
  simp only [Obstacle, List.mem_cons, exists_eq_or_imp]
  apply or_iff_right
  intro spoiled
  obtain ⟨isSpoiled, notOn⟩ := spoiled y rfl
  exact notOn (passed isSpoiled)

theorem Keeps.refl : Keeps m m := ⟨subset_rfl, subset_rfl, fun _ _ => id⟩

theorem Keeps.trans (first : Keeps m m') (second : Keeps m' m'') : Keeps m m'' where
  visited := first.visited.trans second.visited
  failed := first.failed.trans second.failed
  old := fun x mem isFailed => first.old x mem (second.old x (first.visited mem) isFailed)

theorem Keeps.of_visit (keeps : Keeps (m.visit y) m') : Keeps m m' where
  visited := (Set.subset_insert y m.visited).trans keeps.visited
  failed := keeps.failed
  old := fun x mem => keeps.old x (Set.mem_insert_of_mem y mem)

theorem Keeps.fail (keeps : Keeps m m') (fresh : y ∉ m.visited) : Keeps m (m'.fail y) where
  visited := keeps.visited
  failed := keeps.failed.trans (Set.subset_insert y m'.failed)
  old := fun x mem isFailed =>
    keeps.old x mem (isFailed.resolve_left (ne_of_mem_of_not_mem mem fresh))

theorem Sane.visit (sane : Sane mentions path m) (fresh : y ∉ m.visited) :
    Sane mentions (insert y path) (m.visit y) where
  on := Set.insert_subset_insert sane.on
  failed := sane.failed.trans (Set.subset_insert y m.visited)
  apart := by
    rintro x (rfl | mem)
    · exact fun isFailed => fresh (sane.failed isFailed)
    · exact sane.apart x mem
  spoiled := sane.spoiled

theorem Sane.leave (sane : Sane mentions (insert y path) m) : Sane mentions path m where
  on := (Set.subset_insert y path).trans sane.on
  __ := sane
  apart := fun x mem => sane.apart x (Set.mem_insert_of_mem y mem)

theorem Sane.fail (sane : Sane mentions (insert y path) m) (spoiled : Spoiled mentions y)
    (notOn : y ∉ path) : Sane mentions path (m.fail y) where
  on := (Set.subset_insert y path).trans sane.on
  failed := Set.insert_subset (sane.on (Set.mem_insert y path)) sane.failed
  apart := by
    rintro x mem (rfl | isFailed)
    · exact notOn mem
    · exact sane.apart x (Set.mem_insert_of_mem y mem) isFailed
  spoiled := by
    rintro x (rfl | isFailed)
    · exact spoiled
    · exact sane.spoiled x isFailed

theorem Walk.keeps (walk : Walk mentions l m b m') : Keeps m m' := by
  induction walk with
  | nil => exact .refl
  | failure => exact .refl
  | failed => exact .refl
  | seen _ _ _ ih => exact ih
  | fails fresh _ ih => exact ih.of_visit.fail fresh
  | passes _ _ _ ih ih' => exact ih.of_visit.trans ih'

theorem Walk.sane (walk : Walk mentions l m b m') (sane : Sane mentions path m) :
    Sane mentions path m' ∧ (b = true → none ∈ l ∨ ∃ y, some y ∈ l ∧ Spoiled mentions y) := by
  induction walk generalizing path with
  | nil => exact ⟨sane, nofun⟩
  | failure => exact ⟨sane, fun _ => .inl List.mem_cons_self⟩
  | @failed y l m _ isFailed =>
    exact ⟨sane, fun _ => .inr ⟨y, List.mem_cons_self, sane.spoiled y isFailed⟩⟩
  | @seen y l m m' b _ _ _ ih =>
    obtain ⟨sane', found⟩ := ih sane
    refine ⟨sane', fun isTrue => ?_⟩
    rcases found isTrue with mem | ⟨z, mem, spoiled⟩
    · exact .inl (List.mem_cons_of_mem _ mem)
    · exact .inr ⟨z, List.mem_cons_of_mem _ mem, spoiled⟩
  | @fails y l m m' fresh _ ih =>
    obtain ⟨sane', found⟩ := ih (sane.visit fresh)
    have spoiled : Spoiled mentions y := by
      rcases found rfl with mem | ⟨z, mem, spoiled⟩
      · exact .here mem
      · exact .through mem spoiled
    exact ⟨sane'.fail spoiled fun mem => fresh (sane.on mem),
      fun _ => .inr ⟨y, List.mem_cons_self, spoiled⟩⟩
  | @passes y l m m' m'' b fresh _ _ ih ih' =>
    obtain ⟨sane'', found⟩ := ih' (ih (sane.visit fresh)).1.leave
    refine ⟨sane'', fun isTrue => ?_⟩
    rcases found isTrue with mem | ⟨z, mem, spoiled⟩
    · exact .inl (List.mem_cons_of_mem _ mem)
    · exact .inr ⟨z, List.mem_cons_of_mem _ mem, spoiled⟩

theorem Right.of_keeps (right : Right mentions path m') (keeps : Keeps m m') :
    Right mentions path m :=
  fun x mem notOn spoiled => keeps.old x mem (right x (keeps.visited mem) notOn spoiled)

theorem Right.visit (right : Right mentions path m) : Right mentions (insert y path) (m.visit y) := by
  rintro x (rfl | mem) notOn spoiled
  · exact (notOn (Set.mem_insert x path)).elim
  · exact right x mem (fun isOn => notOn (Set.mem_insert_of_mem y isOn)) spoiled

theorem Right.leave (right : Right mentions (insert y path) m)
    (settled : Spoiled mentions y → y ∈ m.failed) : Right mentions path m := by
  intro x mem notOn spoiled
  by_cases isY : x = y
  · subst isY
    exact settled spoiled
  · exact right x mem (fun isOn => notOn (isOn.resolve_left isY)) spoiled

theorem Right.fail_iff : Right mentions path (m.fail y) ↔ Right mentions (insert y path) m := by
  constructor
  · intro right x mem notOn spoiled
    refine (right x mem (fun isOn => notOn (Set.mem_insert_of_mem y isOn)) spoiled).resolve_left ?_
    rintro rfl
    exact notOn (Set.mem_insert x path)
  · intro right x mem notOn spoiled
    by_cases isY : x = y
    · exact .inl isY
    · exact .inr (right x mem (fun isOn => notOn (isOn.resolve_left isY)) spoiled)

theorem Falls.obstacle (falls : Falls mentions m.failed path l fallen)
    (sane : Sane mentions path m) : Obstacle mentions path l := by
  induction l generalizing fallen with
  | nil => cases falls
  | cons o l ih =>
    cases falls with
    | failure => exact ⟨none, List.mem_cons_self, fun y isSome => by cases isSome⟩
    | @settled _ y _ isFailed =>
      refine ⟨some y, List.mem_cons_self, fun z isSome => ?_⟩
      cases isSome
      exact ⟨sane.spoiled y isFailed, fun isOn => sane.apart y isOn isFailed⟩
    | pass passed falls => exact (obstacle_cons passed).mpr (ih falls)
    | @down _ _ y _ spoiled notOn _ _ =>
      refine ⟨some y, List.mem_cons_self, fun z isSome => ?_⟩
      cases isSome
      exact ⟨spoiled, notOn⟩

theorem falls_cons (passed : Spoiled mentions y → y ∈ path) (notFailed : y ∉ settled) :
    Falls mentions settled path (some y :: l) fallen ↔ Falls mentions settled path l fallen := by
  constructor
  · intro falls
    cases falls with
    | settled isFailed => exact (notFailed isFailed).elim
    | pass _ falls => exact falls
    | down spoiled notOn => exact (notOn (passed spoiled)).elim
  · exact .pass passed

theorem Falls.unique {fallen' : Set α} (falls : Falls mentions settled path l fallen)
    (falls' : Falls mentions settled path l fallen')
    (off : ∀ y ∈ settled, Spoiled mentions y ∧ y ∉ path) : fallen = fallen' := by
  induction falls generalizing fallen' with
  | failure =>
    cases falls'
    rfl
  | @settled path y l isSettled =>
    obtain ⟨spoiled, notOn⟩ := off y isSettled
    cases falls' with
    | settled => rfl
    | pass passed => exact (notOn (passed spoiled)).elim
    | down _ _ notSettled => exact (notSettled isSettled).elim
  | @pass path fallen y l passed _ ih =>
    cases falls' with
    | settled isSettled =>
      obtain ⟨spoiled, notOn⟩ := off y isSettled
      exact (notOn (passed spoiled)).elim
    | pass _ falls' => exact ih falls' off
    | down spoiled notOn => exact (notOn (passed spoiled)).elim
  | @down path fallen y l spoiled notOn notSettled _ ih =>
    cases falls' with
    | settled isSettled => exact (notSettled isSettled).elim
    | pass passed => exact (notOn (passed spoiled)).elim
    | down _ _ _ falls' =>
      rw [ih falls' fun z isSettled => ⟨(off z isSettled).1, ?_⟩]
      rintro (rfl | isOn)
      · exact notSettled isSettled
      · exact (off z isSettled).2 isOn

structure Verdict (mentions : α → List (Option α)) (path : Set α) (l : List (Option α)) (m : Marks α)
    (b : Bool) (m' : Marks α) : Prop where
  clear : ¬Obstacle mentions path l → b = false ∧ m'.failed = m.failed ∧ Right mentions path m'
  falls : Obstacle mentions path l → Right mentions path m' → b = true ∧ ∃ fallen,
    Falls mentions m.failed path l fallen ∧ m'.failed = m.failed ∪ fallen
  right : ∀ fallen, Falls mentions m.failed path l fallen → Right mentions path m'

theorem Verdict.cons (verdict : Verdict mentions path l m' b m'') (same : m'.failed = m.failed)
    (passed : Spoiled mentions y → y ∈ path) (notFailed : y ∉ m.failed) :
    Verdict mentions path (some y :: l) m b m'' := by
  constructor
  · rw [obstacle_cons passed, ← same]
    exact verdict.clear
  · intro obstacle right
    obtain ⟨isTrue, fallen, falls, failed⟩ := verdict.falls ((obstacle_cons passed).mp obstacle) right
    rw [same] at falls failed
    exact ⟨isTrue, fallen, .pass passed falls, failed⟩
  · intro fallen falls
    rw [falls_cons passed notFailed, ← same] at falls
    exact verdict.right fallen falls

theorem Walk.verdict (walk : Walk mentions l m b m') (sane : Sane mentions path m)
    (right : Right mentions path m) : Verdict mentions path l m b m' := by
  induction walk generalizing path with
  | nil =>
    exact ⟨fun _ => ⟨rfl, rfl, right⟩, fun ⟨_, mem, _⟩ => (List.not_mem_nil mem).elim,
      fun _ _ => right⟩
  | @failure l m =>
    have obstacle : Obstacle mentions path (none :: l) :=
      ⟨none, List.mem_cons_self, fun y isSome => by cases isSome⟩
    exact ⟨fun clear => (clear obstacle).elim,
      fun _ _ => ⟨rfl, ∅, .failure, (Set.union_empty _).symm⟩, fun _ _ => right⟩
  | @failed y l m _ isFailed =>
    have falls : Falls mentions m.failed path (some y :: l) ∅ := .settled isFailed
    exact ⟨fun clear => (clear (falls.obstacle sane)).elim,
      fun _ _ => ⟨rfl, ∅, falls, (Set.union_empty _).symm⟩, fun _ _ => right⟩
  | @seen y l m m' b isVisited notFailed _ ih =>
    refine (ih sane right).cons rfl (fun spoiled => ?_) notFailed
    by_contra notOn
    exact notFailed (right y isVisited notOn spoiled)
  | @fails y l m m' fresh inner ih =>
    have notOn : y ∉ path := fun isOn => fresh (sane.on isOn)
    have notFailed : y ∉ m.failed := fun isFailed => fresh (sane.failed isFailed)
    have verdict := ih (sane.visit fresh) right.visit
    -- Its mentions have failed, and the walk has not been clear.
    have obstacle : Obstacle mentions (insert y path) (mentions y) := by
      by_contra clear
      cases (verdict.clear clear).1
    have spoiled := spoiled_of_obstacle obstacle
    have here : Obstacle mentions path (some y :: l) := by
      refine ⟨some y, List.mem_cons_self, fun z isSome => ?_⟩
      cases isSome
      exact ⟨spoiled, notOn⟩
    constructor
    · exact fun clear => (clear here).elim
    · intro _ right'
      obtain ⟨_, fallen, falls, failed⟩ := verdict.falls obstacle (Right.fail_iff.mp right')
      refine ⟨rfl, insert y fallen, .down spoiled notOn notFailed falls, ?_⟩
      rw [Set.union_insert]
      exact congrArg (insert y) failed
    · intro fallen falls
      cases falls with
      | settled isFailed => exact (notFailed isFailed).elim
      | pass passed => exact (notOn (passed spoiled)).elim
      | down _ _ _ falls => exact Right.fail_iff.mpr (verdict.right _ falls)
  | @passes y l m m' m'' b fresh inner rest ih ih' =>
    have notOn : y ∉ path := fun isOn => fresh (sane.on isOn)
    have notFailed : y ∉ m.failed := fun isFailed => fresh (sane.failed isFailed)
    have verdict := ih (sane.visit fresh) right.visit
    have sane' := (inner.sane (sane.visit fresh)).1
    by_cases spoiled : Spoiled mentions y
    · -- It is left as not failed, for good.
      have wrong : ¬Right mentions path m'' := by
        intro right''
        have right' := right''.of_keeps rest.keeps
        have settled := right' y (inner.keeps.visited (Set.mem_insert y m.visited)) notOn spoiled
        exact sane'.apart y (Set.mem_insert y path) settled
      have here : Obstacle mentions path (some y :: l) := by
        refine ⟨some y, List.mem_cons_self, fun z isSome => ?_⟩
        cases isSome
        exact ⟨spoiled, notOn⟩
      refine ⟨fun clear => (clear here).elim, fun _ right'' => (wrong right'').elim, ?_⟩
      intro fallen falls
      cases falls with
      | settled isFailed => exact (notFailed isFailed).elim
      | pass passed => exact (notOn (passed spoiled)).elim
      | down _ _ _ falls =>
        have falls' : Falls mentions (m.visit y).failed (insert y path) (mentions y) _ := falls
        cases (verdict.falls (falls'.obstacle (sane.visit fresh)) (verdict.right _ falls')).1
    · have clear : ¬Obstacle mentions (insert y path) (mentions y) :=
        fun obstacle => spoiled (spoiled_of_obstacle obstacle)
      obtain ⟨_, same, right'⟩ := verdict.clear clear
      have passed (isSpoiled : Spoiled mentions y) : y ∈ path := (spoiled isSpoiled).elim
      exact (ih' sane'.leave (right'.leave fun isSpoiled => (spoiled isSpoiled).elim)).cons same
        passed notFailed

theorem Runs.keeps (runs : Runs mentions xs m m') : Keeps m m' := by
  induction runs with
  | nil => exact .refl
  | cons walk _ ih => exact walk.keeps.trans ih

theorem Runs.sane (runs : Runs mentions xs m m') (sane : Sane mentions ∅ m) :
    Sane mentions ∅ m' := by
  induction runs with
  | nil => exact sane
  | cons walk _ ih => exact ih (walk.sane sane).1

theorem obstacle_root : Obstacle mentions ∅ [some x] ↔ Spoiled mentions x := by
  simp [Obstacle]

theorem Runs.right_iff (runs : Runs mentions xs m m') (sane : Sane mentions ∅ m)
    (right : Right mentions ∅ m) : Right mentions ∅ m' ↔ Orderly mentions m.failed xs := by
  induction runs with
  | nil => exact ⟨fun _ => .nil, fun _ => right⟩
  | @cons x xs b m m' m'' walk runs ih =>
    have verdict := walk.verdict sane right
    have sane' := (walk.sane sane).1
    by_cases spoiled : Spoiled mentions x
    · constructor
      · intro right''
        have right' := right''.of_keeps runs.keeps
        obtain ⟨_, fallen, falls, failed⟩ := verdict.falls (obstacle_root.mpr spoiled) right'
        rw [ih sane' right', failed] at right''
        exact .spoiled spoiled falls right''
      · intro orderly
        cases orderly with
        | sound notSpoiled => exact (notSpoiled spoiled).elim
        | @spoiled _ fallen _ _ _ falls rest =>
          have right' := verdict.right fallen falls
          obtain ⟨_, fallen', falls', failed⟩ :=
            verdict.falls (obstacle_root.mpr spoiled) right'
          have same := falls'.unique falls fun y isFailed =>
            ⟨sane.spoiled y isFailed, Set.notMem_empty y⟩
          rw [ih sane' right', failed, same]
          exact rest
    · obtain ⟨_, same, right'⟩ := verdict.clear (mt obstacle_root.mp spoiled)
      rw [ih sane' right', same]
      constructor
      · exact .sound spoiled
      · intro orderly
        cases orderly with
        | sound _ rest => exact rest
        | spoiled isSpoiled => exact (spoiled isSpoiled).elim

theorem Walk.stop {l' : List (Option α)} (walk : Walk mentions l m b m') (isTrue : b = true) :
    Walk mentions (l ++ l') m true m' := by
  induction walk with
  | nil => cases isTrue
  | failure => exact .failure
  | failed isVisited isFailed => exact .failed isVisited isFailed
  | seen isVisited notFailed _ ih => exact .seen isVisited notFailed (ih isTrue)
  | fails fresh inner => exact .fails fresh inner
  | passes fresh inner _ _ ih => exact .passes fresh inner (ih isTrue)

theorem Walk.append {l' : List (Option α)} {b' : Bool} (walk : Walk mentions l m b m')
    (isFalse : b = false) (rest : Walk mentions l' m' b' m'') :
    Walk mentions (l ++ l') m b' m'' := by
  induction walk with
  | nil => exact rest
  | failure => cases isFalse
  | failed => cases isFalse
  | seen isVisited notFailed _ ih => exact .seen isVisited notFailed (ih isFalse rest)
  | fails => cases isFalse
  | passes fresh inner _ _ ih => exact .passes fresh inner (ih isFalse rest)

theorem Walk.root_failed (walk : Walk mentions [some x] m b m')
    (start : x ∈ m.failed → x ∈ m.visited) : x ∈ m'.failed ↔ b = true := by
  cases walk with
  | failed _ isFailed => exact iff_of_true isFailed rfl
  | seen _ notFailed rest =>
    cases rest
    exact iff_of_false notFailed Bool.false_ne_true
  | fails => exact iff_of_true (Set.mem_insert x _) rfl
  | passes fresh inner rest =>
    cases rest
    refine iff_of_false (fun isFailed => fresh (start ?_)) Bool.false_ne_true
    exact inner.keeps.old x (Set.mem_insert x m.visited) isFailed

theorem Walk.root_visited (walk : Walk mentions [some x] m b m') : x ∈ m'.visited := by
  cases walk with
  | failed isVisited => exact isVisited
  | seen isVisited _ rest => exact rest.keeps.visited isVisited
  | fails _ inner => exact inner.keeps.visited (Set.mem_insert x m.visited)
  | passes _ inner rest =>
    exact rest.keeps.visited (inner.keeps.visited (Set.mem_insert x m.visited))

theorem Walk.within {K : Set α} (walk : Walk mentions l m b m')
    (closed : ∀ x ∈ K, ∀ y, some y ∈ mentions x → y ∈ K) (mem : ∀ y, some y ∈ l → y ∈ K)
    (start : m.visited ⊆ K) : m'.visited ⊆ K := by
  induction walk with
  | nil => exact start
  | failure => exact start
  | failed => exact start
  | seen _ _ _ ih => exact ih (fun y member => mem y (List.mem_cons_of_mem _ member)) start
  | @fails y _ _ _ _ _ ih =>
    have here := mem y List.mem_cons_self
    exact ih (closed y here) (Set.insert_subset here start)
  | @passes y _ _ _ _ _ _ _ _ ih ih' =>
    have here := mem y List.mem_cons_self
    exact ih' (fun z member => mem z (List.mem_cons_of_mem _ member))
      (ih (closed y here) (Set.insert_subset here start))

theorem Runs.visited (runs : Runs mentions xs m m') (mem : x ∈ xs) : x ∈ m'.visited := by
  induction runs with
  | nil => cases mem
  | cons walk runs ih =>
    rcases List.mem_cons.mp mem with rfl | later
    · exact runs.keeps.visited walk.root_visited
    · exact ih later

theorem Runs.within {K : Set α} (runs : Runs mentions xs m m')
    (closed : ∀ x ∈ K, ∀ y, some y ∈ mentions x → y ∈ K) (mem : ∀ x ∈ xs, x ∈ K)
    (start : m.visited ⊆ K) : m'.visited ⊆ K := by
  induction runs with
  | nil => exact start
  | @cons x xs _ _ _ _ walk _ ih =>
    obtain ⟨here, later⟩ := List.forall_mem_cons.mp mem
    refine ih later (walk.within closed (fun y member => ?_) start)
    cases List.mem_singleton.mp member
    exact here

theorem Runs.failed_iff (runs : Runs mentions xs ⟨∅, ∅⟩ m)
    (closed : ∀ x ∈ xs, ∀ y, some y ∈ mentions x → y ∈ xs) :
    (∀ x ∈ xs, x ∈ m.failed ↔ Spoiled mentions x) ↔ Orderly mentions ∅ xs := by
  have sane : Sane mentions ∅ ⟨∅, ∅⟩ :=
    ⟨subset_rfl, subset_rfl, fun _ mem => mem.elim, fun _ mem => mem.elim⟩
  rw [← runs.right_iff sane fun _ mem => mem.elim]
  constructor
  · intro settled x mem _ spoiled
    have within := runs.within (K := { x | x ∈ xs }) closed (fun _ => id) (Set.empty_subset _)
    exact (settled x (within mem)).mpr spoiled
  · intro right x mem
    exact ⟨(runs.sane sane).spoiled x, right x (runs.visited mem) (Set.notMem_empty x)⟩

end Searches

end Settling
