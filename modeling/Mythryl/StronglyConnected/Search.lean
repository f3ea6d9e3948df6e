import Mathlib.Logic.Relation
import Mathlib.Logic.Function.Basic
import Mathlib.Data.List.Nodup
import Mathlib.Order.Nat
import Mathlib.Tactic.Common

/-! # Strongly connected components by one search -/

namespace StronglyConnected

variable {N : Type}

abbrev Reaches (follow : N → List N) : N → N → Prop :=
  Relation.ReflTransGen fun x y => y ∈ follow x

structure Search (N : Type) where
  num : N → Nat
  low : N → Nat
  next : Nat
  stack : List N
  done : List (List N)

def Search.met (s : Search N) : List N := s.stack ++ s.done.flatten

def Owns (s : Search N) (path : List N) (g x : N) : Prop :=
  s.num g ≤ s.num x ∧ ∀ g' ∈ path, s.num g' ≤ s.num x → s.num g' ≤ s.num g

structure Invariant (follow : N → List N) (roots path : List N) (todo : N → N → Prop)
    (s : Search N) : Prop where
  nodup : s.met.Nodup
  num_lt : ∀ x ∈ s.stack, s.num x < s.next
  sorted : s.stack.Pairwise fun x y => s.num y < s.num x
  entered : ∀ g ∈ path, g ∈ s.stack
  nested : path.Pairwise fun g g' => s.num g' < s.num g
  of_todo : ∀ x y, todo x y → x ∈ path
  edges : ∀ x ∈ s.met, ∀ y ∈ follow x, y ∈ s.met ∨ todo x y
  later : ∀ x ∈ s.stack, ∀ y ∈ s.stack, s.num x ≤ s.num y → Reaches follow x y
  owner : ∀ y ∈ s.stack, ∃ g ∈ path, s.num g ≤ s.num y ∧ Reaches follow y g
  low_le : ∀ x ∈ s.stack, s.low x ≤ s.num x
  low_reach : ∀ x ∈ s.stack, ∃ y ∈ s.stack, s.num y = s.low x ∧ Reaches follow x y
  cover : ∀ g ∈ path, ∀ x ∈ s.stack, Owns s path g x →
    ∀ y ∈ follow x, y ∈ s.stack → s.low g ≤ s.num y ∨ todo x y
  closed : ∀ x ∈ s.done.flatten, ∀ y ∈ follow x, y ∈ s.done.flatten
  component : ∀ c ∈ s.done, c ≠ [] ∧
    ∀ x ∈ c, ∀ y, y ∈ c ↔ Reaches follow x y ∧ Reaches follow y x
  order : s.done.Pairwise fun c c' => ∀ x ∈ c', ∀ y ∈ follow x, y ∉ c
  reached : ∀ x ∈ s.met, ∃ r ∈ roots, Reaches follow r x

section Facts

variable {follow : N → List N} {roots path : List N} {todo : N → N → Prop} {s : Search N}
  {v w x y : N}

theorem mem_of_reaches {S : N → Prop} (closed : ∀ x, S x → ∀ y ∈ follow x, S y) (inside : S x)
    (reaches : Reaches follow x y) : S y := by
  induction reaches with
  | refl => exact inside
  | tail _ edge ih => exact closed _ ih _ edge

theorem Search.mem_met : x ∈ s.met ↔ x ∈ s.stack ∨ x ∈ s.done.flatten := List.mem_append

theorem Invariant.num_inj (inv : Invariant follow roots path todo s) (memX : x ∈ s.stack)
    (memY : y ∈ s.stack) (same : s.num x = s.num y) : x = y := by
  have different : (s.stack.map s.num).Nodup := by
    apply List.pairwise_map.mpr
    exact inv.sorted.imp fun less => (Nat.ne_of_lt less).symm
  exact List.inj_on_of_nodup_map different memX memY same

theorem Invariant.num_le_top (inv : Invariant follow roots (v :: path) todo s)
    (mem : x ∈ v :: path) : s.num x ≤ s.num v := by
  rcases List.mem_cons.mp mem with rfl | mem
  · exact Nat.le_refl _
  · exact Nat.le_of_lt ((List.pairwise_cons.mp inv.nested).1 x mem)

theorem Invariant.reaches_top (inv : Invariant follow roots (v :: path) todo s)
    (mem : x ∈ s.stack) : Reaches follow x v := by
  obtain ⟨g, memG, -, reaches⟩ := inv.owner x mem
  have top := inv.entered v (List.mem_cons_self ..)
  exact reaches.trans (inv.later g (inv.entered g memG) v top (inv.num_le_top memG))

theorem Invariant.stack_empty (inv : Invariant follow roots [] todo s) : s.stack = [] := by
  apply List.eq_nil_iff_forall_not_mem.mpr
  intro x mem
  obtain ⟨g, memG, -⟩ := inv.owner x mem
  cases memG

theorem Invariant.low_first (inv : Invariant follow roots [v] todo s) : s.low v = s.num v := by
  have mem := inv.entered v (List.mem_cons_self ..)
  obtain ⟨y, memY, same, -⟩ := inv.low_reach v mem
  obtain ⟨g, memG, below, -⟩ := inv.owner y memY
  cases List.mem_singleton.mp memG
  apply Nat.le_antisymm (inv.low_le v mem)
  rw [← same]
  exact below

end Facts

def more (v : N) (rest : List N) (todo : N → N → Prop) : N → N → Prop :=
  fun x y => (x = v ∧ y ∈ rest) ∨ todo x y

theorem more_reverse (v : N) (rest : List N) (todo : N → N → Prop) :
    more v rest.reverse todo = more v rest todo := by
  funext x y
  simp [more]

theorem more_comm (v w : N) (rest rest' : List N) (todo : N → N → Prop) :
    more v rest (more w rest' todo) = more w rest' (more v rest todo) := by
  funext x y
  exact propext or_left_comm

section Steps

variable {follow : N → List N} {roots path : List N} {todo : N → N → Prop} {s : Search N}
  {v w g : N} {rest : List N}

theorem Owns.eq_of_mem (inv : Invariant follow roots path todo s) {g x : N} (owns : Owns s path g x)
    (memG : g ∈ path) (memX : x ∈ path) : g = x :=
  inv.num_inj (inv.entered g memG) (inv.entered x memX)
    (Nat.le_antisymm owns.1 (owns.2 x memX (Nat.le_refl _)))

theorem Invariant.consume (inv : Invariant follow roots path (more v (w :: rest) todo) s)
    (entered : v ∈ path) (met : w ∈ s.met) (low : w ∈ s.stack → s.low v ≤ s.num w) :
    Invariant follow roots path (more v rest todo) s := by
  have split {x y : N} (before : more v (w :: rest) todo x y) :
      (x = v ∧ y = w) ∨ more v rest todo x y := by
    rcases before with ⟨same, mem⟩ | before
    · rcases List.mem_cons.mp mem with equal | mem
      · exact .inl ⟨same, equal⟩
      · exact .inr (.inl ⟨same, mem⟩)
    · exact .inr (.inr before)
  refine { inv with of_todo := ?_, edges := ?_, cover := ?_ }
  · rintro x y (⟨same, mem⟩ | after)
    · rwa [same]
    · exact inv.of_todo x y (.inr after)
  · intro x mem y edge
    rcases inv.edges x mem y edge with met' | before
    · exact .inl met'
    · rcases split before with ⟨-, rfl⟩ | after
      · exact .inl met
      · exact .inr after
  · intro g memG x memX owns y edge memY
    rcases inv.cover g memG x memX owns y edge memY with less | before
    · exact .inl less
    · rcases split before with ⟨rfl, rfl⟩ | after
      · cases owns.eq_of_mem inv memG entered
        exact .inl (low memY)
      · exact .inr after

theorem Invariant.leave (inv : Invariant follow roots (v :: g :: path) (more v [] todo) s)
    (of_todo : ∀ x y, todo x y → x ∈ g :: path) (lower : s.low v ≠ s.num v)
    (parent : s.low g ≤ s.low v) : Invariant follow roots (g :: path) todo s := by
  have memV := inv.entered v (List.mem_cons_self ..)
  have nested := List.pairwise_cons.mp inv.nested
  have less : s.low v < s.num v := Nat.lt_of_le_of_ne (inv.low_le v memV) lower
  have none {x y : N} (pending : more v [] todo x y) : todo x y := by
    rcases pending with ⟨-, mem⟩ | pending
    · cases mem
    · exact pending
  refine { inv with entered := ?_, nested := nested.2, of_todo := of_todo, edges := ?_,
                    owner := ?_, cover := ?_ }
  · exact fun g' mem => inv.entered g' (List.mem_cons_of_mem _ mem)
  · exact fun x mem y edge => (inv.edges x mem y edge).imp_right none
  · intro y mem
    obtain ⟨g', inside, order, reach⟩ := inv.owner y mem
    rcases List.mem_cons.mp inside with equal | mem'
    · -- The owner is the node that is left; the owner of its low node is another.
      rw [equal] at order reach
      obtain ⟨z, memZ, same, reachZ⟩ := inv.low_reach v memV
      obtain ⟨g2, mem2, order2, reach2⟩ := inv.owner z memZ
      rcases List.mem_cons.mp mem2 with rfl | mem2
      · rw [same] at order2
        exact absurd order2 (Nat.not_le.mpr less)
      · refine ⟨g2, mem2, ?_, reach.trans (reachZ.trans reach2)⟩
        rw [same] at order2
        exact (order2.trans (Nat.le_of_lt less)).trans order
    · exact ⟨g', mem', order, reach⟩
  · intro g' mem' x memX owns y edge memY
    by_cases above : s.num v ≤ s.num x
    · -- The node that is left owned `x`, and now the one before owns it.
      have same : g' = g := by
        have order := owns.2 g (List.mem_cons_self ..)
          ((Nat.le_of_lt (nested.1 g (List.mem_cons_self ..))).trans above)
        rcases List.mem_cons.mp mem' with equal | mem'
        · exact equal
        · have below := (List.pairwise_cons.mp nested.2).1 g' mem'
          exact absurd order (Nat.not_le.mpr below)
      cases same
      have ownsV : Owns s (v :: g :: path) v x :=
        ⟨above, fun g2 mem2 _ => inv.num_le_top mem2⟩
      rcases inv.cover v (List.mem_cons_self ..) x memX ownsV y edge memY with order | pending
      · exact .inl (parent.trans order)
      · exact .inr (none pending)
    · have owns' : Owns s (v :: g :: path) g' x := by
        refine ⟨owns.1, ?_⟩
        intro g2 mem2 order
        rcases List.mem_cons.mp mem2 with rfl | mem2
        · exact absurd order above
        · exact owns.2 g2 mem2 order
      exact (inv.cover g' (List.mem_cons_of_mem _ mem') x memX owns' y edge memY).imp_right none

def Search.grab (s : Search N) (v : N) (above below : List N) : Search N :=
  { s with stack := below, done := (v :: above.reverse) :: s.done }

section Grab

variable {above below : List N} {x : N} (inv : Invariant follow roots (v :: path) todo s)
  (stack : s.stack = above ++ v :: below)
include inv stack

theorem Invariant.mem_above : x ∈ v :: above.reverse ↔ x ∈ s.stack ∧ s.num v ≤ s.num x := by
  have sorted := inv.sorted
  rw [stack] at sorted ⊢
  obtain ⟨-, sortedV, across⟩ := List.pairwise_append.mp sorted
  rw [List.mem_cons, List.mem_reverse, List.mem_append, List.mem_cons]
  constructor
  · rintro (rfl | mem)
    · exact ⟨.inr (.inl rfl), Nat.le_refl _⟩
    · exact ⟨.inl mem, Nat.le_of_lt (across x mem v (List.mem_cons_self ..))⟩
  · rintro ⟨mem | rfl | mem, order⟩
    · exact .inr mem
    · exact .inl rfl
    · exact absurd order (Nat.not_le.mpr ((List.pairwise_cons.mp sortedV).1 x mem))

theorem Invariant.mem_below : x ∈ below ↔ x ∈ s.stack ∧ s.num x < s.num v := by
  have sorted := inv.sorted
  rw [stack] at sorted ⊢
  obtain ⟨-, sortedV, across⟩ := List.pairwise_append.mp sorted
  rw [List.mem_append, List.mem_cons]
  constructor
  · intro mem
    exact ⟨.inr (.inr mem), (List.pairwise_cons.mp sortedV).1 x mem⟩
  · rintro ⟨mem | rfl | mem, order⟩
    · exact absurd order (Nat.lt_asymm (across x mem v (List.mem_cons_self ..)))
    · exact absurd order (Nat.lt_irrefl _)
    · exact mem

omit inv in
theorem Search.met_grab : (s.grab v above below).met.Perm s.met := by
  unfold Search.met Search.grab
  rw [stack, List.flatten_cons, ← List.append_assoc]
  apply List.Perm.append_right
  apply List.perm_append_comm.trans
  have both : (above ++ [v]).Perm (v :: above.reverse) :=
    List.perm_append_comm.trans ((List.reverse_perm above).symm.cons v)
  have whole : above ++ v :: below = (above ++ [v]) ++ below := by simp
  rw [whole]
  exact both.symm.append_right below

end Grab

theorem Invariant.grab (inv : Invariant follow roots (v :: path) (more v [] todo) s)
    (of_todo : ∀ x y, todo x y → x ∈ path) (root : s.low v = s.num v) {above below : List N}
    (stack : s.stack = above ++ v :: below) :
    Invariant follow roots path todo (s.grab v above below) := by
  have memV := inv.entered v (List.mem_cons_self ..)
  have memC (x : N) := inv.mem_above (x := x) stack
  have memB (x : N) := inv.mem_below (x := x) stack
  have met := Search.met_grab stack
  have nested := List.pairwise_cons.mp inv.nested
  have apart : ∀ x ∈ s.stack, x ∉ s.done.flatten := by
    intro x mem mem'
    exact (List.disjoint_of_nodup_append inv.nodup) mem mem'
  have none {x y : N} (pending : more v [] todo x y) : todo x y := by
    rcases pending with ⟨-, mem⟩ | pending
    · cases mem
    · exact pending
  have untodo {x y : N} (mem : x ∈ v :: above.reverse) : ¬ todo x y := by
    intro pending
    have less := nested.1 x (of_todo x y pending)
    exact Nat.not_le.mpr less ((memC x).mp mem).2
  have closed : ∀ x ∈ v :: above.reverse, ∀ y ∈ follow x,
      y ∈ v :: above.reverse ∨ y ∈ s.done.flatten := by
    intro x mem y edge
    obtain ⟨memX, order⟩ := (memC x).mp mem
    have metX : x ∈ s.met := Search.mem_met.mpr (.inl memX)
    rcases inv.edges x metX y edge with memY | pending
    · rcases Search.mem_met.mp memY with memY | memY
      · have owns : Owns s (v :: path) v x := ⟨order, fun g mem _ => inv.num_le_top mem⟩
        rcases inv.cover v (List.mem_cons_self ..) x memX owns y edge memY with less | pending
        · rw [root] at less
          exact .inl ((memC y).mpr ⟨memY, less⟩)
        · exact absurd (none pending) (untodo mem)
      · exact .inr memY
    · exact absurd (none pending) (untodo mem)
  have closed' : ∀ x, (x ∈ v :: above.reverse ∨ x ∈ s.done.flatten) → ∀ y ∈ follow x,
      y ∈ v :: above.reverse ∨ y ∈ s.done.flatten := by
    rintro x (mem | mem) y edge
    · exact closed x mem y edge
    · exact .inr (inv.closed x mem y edge)
  have entered : ∀ g ∈ path, g ∈ below := fun g mem =>
    (memB g).mpr ⟨inv.entered g (List.mem_cons_of_mem _ mem), nested.1 g mem⟩
  constructor
  case nodup => exact met.nodup_iff.mpr inv.nodup
  case num_lt => exact fun x mem => inv.num_lt x ((memB x).mp mem).1
  case sorted =>
    have sorted := inv.sorted
    rw [stack] at sorted
    exact (List.pairwise_cons.mp (List.pairwise_append.mp sorted).2.1).2
  case entered => exact entered
  case nested => exact nested.2
  case of_todo => exact of_todo
  case edges =>
    intro x mem y edge
    rw [met.mem_iff] at mem ⊢
    exact (inv.edges x mem y edge).imp_right none
  case later =>
    exact fun x memX y memY => inv.later x ((memB x).mp memX).1 y ((memB y).mp memY).1
  case owner =>
    intro y mem
    obtain ⟨memY, less⟩ := (memB y).mp mem
    obtain ⟨g, memG, order, reach⟩ := inv.owner y memY
    rcases List.mem_cons.mp memG with rfl | memG
    · exact absurd order (Nat.not_le.mpr less)
    · exact ⟨g, memG, order, reach⟩
  case low_le => exact fun x mem => inv.low_le x ((memB x).mp mem).1
  case low_reach =>
    intro x mem
    obtain ⟨memX, less⟩ := (memB x).mp mem
    obtain ⟨y, memY, same, reach⟩ := inv.low_reach x memX
    refine ⟨y, (memB y).mpr ⟨memY, ?_⟩, same, reach⟩
    rw [same]
    exact (inv.low_le x memX).trans_lt less
  case cover =>
    intro g memG x mem owns y edge mem'
    obtain ⟨memX, less⟩ := (memB x).mp mem
    have owns' : Owns s (v :: path) g x := by
      refine ⟨owns.1, ?_⟩
      intro g' memG' order
      rcases List.mem_cons.mp memG' with rfl | memG'
      · exact absurd order (Nat.not_le.mpr less)
      · exact owns.2 g' memG' order
    have covered := inv.cover g (List.mem_cons_of_mem _ memG) x memX owns' y edge
    exact (covered ((memB y).mp mem').1).imp_right none
  case closed =>
    intro x mem y edge
    exact List.mem_append.mpr (closed' x (List.mem_append.mp mem) y edge)
  case component =>
    intro c mem
    rcases List.mem_cons.mp mem with rfl | mem
    · refine ⟨List.cons_ne_nil _ _, ?_⟩
      intro x memX y
      obtain ⟨stackX, orderX⟩ := (memC x).mp memX
      constructor
      · intro memY
        obtain ⟨stackY, orderY⟩ := (memC y).mp memY
        have fromV := inv.later v memV
        exact ⟨(inv.reaches_top stackX).trans (fromV y stackY orderY),
          (inv.reaches_top stackY).trans (fromV x stackX orderX)⟩
      · rintro ⟨forth, back⟩
        rcases mem_of_reaches closed' (.inl memX) forth with memY | memY
        · exact memY
        · exact absurd (mem_of_reaches inv.closed memY back) (apart x stackX)
    · exact inv.component c mem
  case order =>
    apply List.pairwise_cons.mpr
    refine ⟨?_, inv.order⟩
    intro c mem x memX y edge memY
    have done := inv.closed x (List.mem_flatten.mpr ⟨c, mem, memX⟩) y edge
    exact apart y ((memC y).mp memY).1 done
  case reached => exact fun x mem => inv.reached x (met.mem_iff.mp mem)

section Numbers

variable [DecidableEq N]

def Search.lower (s : Search N) (v : N) (n : Nat) : Search N :=
  { s with low := Function.update s.low v n }

@[simp] theorem Search.lower_self (s : Search N) (v : N) (n : Nat) : (s.lower v n).low v = n :=
  Function.update_self ..

variable {x : N}

theorem Search.lower_of_ne (other : x ≠ v) (n : Nat) : (s.lower v n).low x = s.low x :=
  Function.update_of_ne other ..

theorem Search.lower_le {n : Nat} (less : n ≤ s.low v) (x : N) : (s.lower v n).low x ≤ s.low x := by
  by_cases same : x = v
  · rw [same, Search.lower_self]
    exact less
  · rw [Search.lower_of_ne same]

theorem Invariant.lower (inv : Invariant follow roots path todo s) {n : Nat} (less : n ≤ s.low v)
    (reach : ∃ y ∈ s.stack, s.num y = n ∧ Reaches follow v y) :
    Invariant follow roots path todo (s.lower v n) := by
  refine { inv with low_le := ?_, low_reach := ?_, cover := ?_ }
  · intro x mem
    exact (Search.lower_le less x).trans (inv.low_le x mem)
  · intro x mem
    by_cases same : x = v
    · cases same
      obtain ⟨y, memY, equal, reaches⟩ := reach
      exact ⟨y, memY, equal.trans (s.lower_self v n).symm, reaches⟩
    · obtain ⟨y, memY, equal, reaches⟩ := inv.low_reach x mem
      exact ⟨y, memY, equal.trans (Search.lower_of_ne same n).symm, reaches⟩
  · intro g memG x memX owns y edge memY
    apply (inv.cover g memG x memX owns y edge memY).imp_left
    exact (Search.lower_le less g).trans

def Search.meet (s : Search N) (v w : N) : Search N :=
  if s.low w < s.low v ∧ w ∈ s.stack then s.lower v (s.low w) else s

theorem Invariant.meet (inv : Invariant follow roots path (more v (w :: rest) todo) s)
    (entered : v ∈ path) (edge : w ∈ follow v) (met : w ∈ s.met) :
    Invariant follow roots path (more v rest todo) (s.meet v w) := by
  unfold Search.meet
  split
  · next both =>
      obtain ⟨y, memY, same, reaches⟩ := inv.low_reach w both.2
      have lowered := inv.lower (Nat.le_of_lt both.1) ⟨y, memY, same, .head edge reaches⟩
      apply lowered.consume entered met
      intro mem
      apply le_trans _ (inv.low_le w mem)
      rw [Search.lower_self]
  · next neither =>
      apply inv.consume entered met
      intro mem
      have low : s.low v ≤ s.low w := Nat.not_lt.mp fun less => neither ⟨less, mem⟩
      exact low.trans (inv.low_le w mem)

def Search.push (s : Search N) (w : N) : Search N where
  num := Function.update s.num w s.next
  low := Function.update s.low w s.next
  next := s.next + 1
  stack := w :: s.stack
  done := s.done

@[simp] theorem Search.push_num_self (s : Search N) (w : N) : (s.push w).num w = s.next :=
  Function.update_self ..

@[simp] theorem Search.push_low_self (s : Search N) (w : N) : (s.push w).low w = s.next :=
  Function.update_self ..

theorem Search.push_num_of_ne (other : x ≠ w) : (s.push w).num x = s.num x :=
  Function.update_of_ne other ..

theorem Search.push_low_of_ne (other : x ≠ w) : (s.push w).low x = s.low x :=
  Function.update_of_ne other ..

theorem Invariant.push (inv : Invariant follow roots path todo s) (fresh : w ∉ s.met)
    (reached : ∃ r ∈ roots, Reaches follow r w) (reaches : ∀ x ∈ s.stack, Reaches follow x w) :
    Invariant follow roots (w :: path) (more w (follow w) todo) (s.push w) := by
  have freshStack : w ∉ s.stack := fun mem => fresh (Search.mem_met.mpr (.inl mem))
  have old {x : N} (mem : x ∈ s.stack) : x ≠ w := ne_of_mem_of_not_mem mem freshStack
  have num {x : N} (mem : x ∈ s.stack) : (s.push w).num x = s.num x := Search.push_num_of_ne (old mem)
  have low {x : N} (mem : x ∈ s.stack) : (s.push w).low x = s.low x := Search.push_low_of_ne (old mem)
  have below {x : N} (mem : x ∈ s.stack) : (s.push w).num x < (s.push w).num w := by
    rw [num mem, Search.push_num_self]
    exact inv.num_lt x mem
  have entered {g : N} (mem : g ∈ path) : g ∈ s.stack := inv.entered g mem
  constructor
  case nodup => exact List.nodup_cons.mpr ⟨fresh, inv.nodup⟩
  case num_lt =>
    intro x mem
    rcases List.mem_cons.mp mem with rfl | mem
    · rw [Search.push_num_self]
      exact Nat.lt_succ_self _
    · rw [num mem]
      exact Nat.lt_succ_of_lt (inv.num_lt x mem)
  case sorted =>
    apply List.pairwise_cons.mpr
    refine ⟨fun x mem => below mem, inv.sorted.imp_of_mem ?_⟩
    intro x y memX memY less
    rwa [num memX, num memY]
  case entered =>
    intro g mem
    rcases List.mem_cons.mp mem with rfl | mem
    · exact List.mem_cons_self ..
    · exact List.mem_cons_of_mem _ (entered mem)
  case nested =>
    apply List.pairwise_cons.mpr
    refine ⟨fun g mem => below (entered mem), inv.nested.imp_of_mem ?_⟩
    intro g g' mem mem' less
    rwa [num (entered mem), num (entered mem')]
  case of_todo =>
    rintro x y (⟨rfl, -⟩ | pending)
    · exact List.mem_cons_self ..
    · exact List.mem_cons_of_mem _ (inv.of_todo x y pending)
  case edges =>
    intro x mem y edge
    rcases List.mem_cons.mp mem with rfl | mem
    · exact .inr (.inl ⟨rfl, edge⟩)
    · exact (inv.edges x mem y edge).imp (List.mem_cons_of_mem _) .inr
  case later =>
    intro x insideX y insideY order
    rcases List.mem_cons.mp insideX with rfl | memX
    · rcases List.mem_cons.mp insideY with rfl | memY
      · exact .refl
      · exact absurd order (Nat.not_le.mpr (below memY))
    · rcases List.mem_cons.mp insideY with rfl | memY
      · exact reaches x memX
      · rw [num memX, num memY] at order
        exact inv.later x memX y memY order
  case owner =>
    intro y mem
    rcases List.mem_cons.mp mem with rfl | mem
    · exact ⟨y, List.mem_cons_self .., Nat.le_refl _, .refl⟩
    · obtain ⟨g, memG, order, reach⟩ := inv.owner y mem
      refine ⟨g, List.mem_cons_of_mem _ memG, ?_, reach⟩
      rwa [num (entered memG), num mem]
  case low_le =>
    intro x mem
    rcases List.mem_cons.mp mem with rfl | mem
    · rw [Search.push_low_self, Search.push_num_self]
    · rw [low mem, num mem]
      exact inv.low_le x mem
  case low_reach =>
    intro x mem
    rcases List.mem_cons.mp mem with rfl | mem
    · refine ⟨x, List.mem_cons_self .., ?_, .refl⟩
      rw [Search.push_low_self, Search.push_num_self]
    · obtain ⟨y, memY, same, reach⟩ := inv.low_reach x mem
      refine ⟨y, List.mem_cons_of_mem _ memY, ?_, reach⟩
      rw [low mem, num memY, same]
  case cover =>
    intro g insideG x insideX owns y edge insideY
    rcases List.mem_cons.mp insideX with rfl | memX
    · exact .inr (.inl ⟨rfl, edge⟩)
    · rcases List.mem_cons.mp insideG with rfl | memG
      · exact absurd owns.1 (Nat.not_le.mpr (below memX))
      · have owns' : Owns s path g x := by
          constructor
          · rw [← num (entered memG), ← num memX]
            exact owns.1
          · intro g' mem' order
            rw [← num (entered mem'), ← num (entered memG)]
            apply owns.2 g' (List.mem_cons_of_mem _ mem')
            rwa [num (entered mem'), num memX]
        rw [low (entered memG)]
        rcases List.mem_cons.mp insideY with rfl | memY
        · rw [Search.push_num_self]
          have order := (inv.low_le g (entered memG)).trans_lt (inv.num_lt g (entered memG))
          exact .inl (Nat.le_of_lt order)
        · rw [num memY]
          exact (inv.cover g memG x memX owns' y edge memY).imp_right .inr
  case closed => exact inv.closed
  case component => exact inv.component
  case order => exact inv.order
  case reached =>
    intro x mem
    rcases List.mem_cons.mp mem with rfl | mem
    · exact reached
    · exact inv.reached x mem

def Search.retire (s : Search N) (v g : N) : Search N :=
  if s.low v < s.low g then s.lower g (s.low v) else s

theorem Invariant.retire (inv : Invariant follow roots (v :: g :: path) (more v [] todo) s)
    (of_todo : ∀ x y, todo x y → x ∈ g :: path) (lower : s.low v ≠ s.num v) :
    Invariant follow roots (g :: path) todo (s.retire v g) := by
  have memV := inv.entered v (List.mem_cons_self ..)
  have memG := inv.entered g (List.mem_cons_of_mem _ (List.mem_cons_self ..))
  have order := (List.pairwise_cons.mp inv.nested).1 g (List.mem_cons_self ..)
  have other : v ≠ g := fun same => Nat.lt_irrefl _ (same ▸ order)
  unfold Search.retire
  split
  · next less =>
      obtain ⟨y, memY, same, reach⟩ := inv.low_reach v memV
      have down := inv.later g memG v memV (Nat.le_of_lt order)
      have lowered := inv.lower (Nat.le_of_lt less) ⟨y, memY, same, down.trans reach⟩
      apply lowered.leave of_todo
      · rw [Search.lower_of_ne other]
        exact lower
      · rw [Search.lower_self, Search.lower_of_ne other]
  · next less => exact inv.leave of_todo lower (Nat.not_lt.mp less)

end Numbers

end Steps

structure After (s s' : Search N) : Prop where
  met : ∀ x ∈ s.met, x ∈ s'.met
  num : ∀ x ∈ s.met, s'.num x = s.num x
  length : s.met.length ≤ s'.met.length

section After

variable {s s' s'' : Search N} {w : N}

theorem After.refl (s : Search N) : After s s :=
  ⟨fun _ mem => mem, fun _ _ => rfl, Nat.le_refl _⟩

theorem After.trans (first : After s s') (second : After s' s'') : After s s'' where
  met := fun x mem => second.met x (first.met x mem)
  num := fun x mem => (second.num x (first.met x mem)).trans (first.num x mem)
  length := first.length.trans second.length

theorem After.grab {v : N} {above below : List N} (stack : s.stack = above ++ v :: below) :
    After s (s.grab v above below) := by
  have perm := Search.met_grab stack
  exact ⟨fun x mem => perm.mem_iff.mpr mem, fun _ _ => rfl, perm.length_eq.ge⟩

variable [DecidableEq N]

theorem After.push (fresh : w ∉ s.met) : After s (s.push w) where
  met := fun _ mem => List.mem_cons_of_mem _ mem
  num := fun _ mem => Search.push_num_of_ne (ne_of_mem_of_not_mem mem fresh)
  length := Nat.le_succ _

theorem After.lower (s : Search N) (v : N) (n : Nat) : After s (s.lower v n) :=
  ⟨fun _ mem => mem, fun _ _ => rfl, Nat.le_refl _⟩

end After

section End

variable {follow : N → List N} {roots : List N} {s : Search N}

theorem Invariant.start (follow : N → List N) (roots : List N) (num low : N → Nat) (next : Nat) :
    Invariant follow roots [] (fun _ _ => False) ⟨num, low, next, [], []⟩ := by
  constructor <;> simp [Search.met]

theorem Invariant.mem_done (inv : Invariant follow roots [] (fun _ _ => False) s)
    (all : ∀ r ∈ roots, r ∈ s.met) (x : N) :
    x ∈ s.done.flatten ↔ ∃ r ∈ roots, Reaches follow r x := by
  have met : s.met = s.done.flatten := by
    unfold Search.met
    rw [inv.stack_empty]
    rfl
  rw [← met]
  constructor
  · exact inv.reached x
  · rintro ⟨r, mem, reach⟩
    rw [met] at all ⊢
    exact mem_of_reaches inv.closed (all r mem) reach

end End

end StronglyConnected
