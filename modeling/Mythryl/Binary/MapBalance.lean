import Mathlib.Order.Nat
import Mythryl.Binary.Map
import Mythryl.Exceptions

/-!
# The bounded balance of the map

`rebalance` tests a criterion on the counts of two subtrees.
-/

namespace Mythryl.Binary

def Near (a b : Nat) : Prop := a = 0 ∧ b ≤ 1 ∨ b = 0 ∧ a ≤ 1 ∨ a < wt b ∧ b < wt a

instance (a b : Nat) : Decidable (Near a b) :=
  inferInstanceAs (Decidable (a = 0 ∧ b ≤ 1 ∨ b = 0 ∧ a ≤ 1 ∨ a < wt b ∧ b < wt a))

section Trees

variable {α : Type}

def Tree.Balanced : Tree α → Prop
  | .empty => True
  | .node _ _ l r => Near l.count r.count ∧ l.Balanced ∧ r.Balanced

instance Tree.decidableBalanced : (t : Tree α) → Decidable t.Balanced
  | .empty => inferInstanceAs (Decidable True)
  | .node _ _ l r =>
      have := l.decidableBalanced
      have := r.decidableBalanced
      inferInstanceAs (Decidable (Near l.count r.count ∧ l.Balanced ∧ r.Balanced))

def Halves (a : Nat) (inner : Tree α) (b : Nat) : Prop :=
  match inner with
  | .empty => True
  | .node _ _ x y => Near a x.count ∧ Near y.count b

instance (a : Nat) (inner : Tree α) (b : Nat) : Decidable (Halves a inner b) :=
  match inner with
  | .empty => inferInstanceAs (Decidable True)
  | .node _ _ x y => inferInstanceAs (Decidable (Near a x.count ∧ Near y.count b))

/-- Where `rebalance` rotates twice, the halves meet the criterion with what they come beside. -/
def Fits : Tree α → Tree α → Prop
  | .node _ ln ll lr, .node _ rn rl rr =>
      if rn ≥ wt ln then
        if rl.count < rr.count then True else Halves ln rl rr.count
      else if ln ≥ wt rn then
        if lr.count < ll.count then True else Halves ll.count lr rn
      else True
  | _, _ => True

instance : (l r : Tree α) → Decidable (Fits l r)
  | .node _ ln ll lr, .node _ rn rl rr =>
      inferInstanceAs (Decidable (if rn ≥ wt ln then
        if rl.count < rr.count then True else Halves ln rl rr.count
      else if ln ≥ wt rn then
        if lr.count < ll.count then True else Halves ll.count lr rn
      else True))
  | .empty, .empty => inferInstanceAs (Decidable True)
  | .empty, .node _ _ _ _ => inferInstanceAs (Decidable True)
  | .node _ _ _ _, .empty => inferInstanceAs (Decidable True)

def Off (a b : Nat) : Prop :=
  Near a b ∨ Near (a + 1) b ∨ Near a (b + 1) ∨ (0 < a ∧ Near (a - 1) b) ∨ (0 < b ∧ Near a (b - 1))

variable {a b c : Nat}

theorem Near.symm (near : Near a b) : Near b a := by
  unfold Near at *
  tauto

theorem Off.symm (off : Off a b) : Off b a := by
  rcases off with near | near | near | ⟨pos, near⟩ | ⟨pos, near⟩
  · exact .inl near.symm
  · exact .inr (.inr (.inl near.symm))
  · exact .inr (.inl near.symm)
  · exact .inr (.inr (.inr (.inr ⟨pos, near.symm⟩)))
  · exact .inr (.inr (.inr (.inl ⟨pos, near.symm⟩)))

theorem Near.le (near : Near a b) : b ≤ wt a + 1 := by
  rw [Near, wt, wt] at near
  rw [wt]
  omega

theorem Off.le (off : Off a b) : b ≤ wt a + 2 := by
  simp only [Off, Near, wt] at *
  omega

theorem near_single (off : Off a (b + c + 1)) (heavy : wt a ≤ b + c + 1)
    (near : Near b c) (some : 0 < b + c) (inner : b < c) : Near a b ∧ Near (a + b + 1) c := by
  have total := off.le
  have outer := near.le
  simp only [Near, wt] at heavy total outer ⊢
  omega

theorem near_double {x y : Nat} (off : Off a (x + y + 1 + c + 1))
    (heavy : wt a ≤ x + y + 1 + c + 1) (near : Near x y) (near' : Near (x + y + 1) c)
    (inner : c ≤ x + y + 1) : Near (a + x + 1) (y + c + 1) := by
  have total := off.le
  have outer := near'.symm.le
  have halves := near.symm.le
  refine Or.inr (Or.inr ?_)
  simp only [wt] at *
  omega

theorem halves_empty {inner : Tree α} (exact : inner.Exact)
    (off : Off 0 (inner.count + c + 1)) (large : c ≤ inner.count) :
    Halves 0 inner c ∧ Halves c inner 0 := by
  have total := off.le
  cases inner with
  | empty => exact ⟨trivial, trivial⟩
  | node e n x y =>
    have count : n = x.count + y.count + 1 := exact.1
    rw [count_node, wt] at total
    obtain rfl : c = 0 := by omega
    have none : x.count = 0 ∧ y.count = 0 := by omega
    simp only [Halves, none]
    decide

variable {v e : α} {n : Nat} {l r t inner outer : Tree α}

theorem balanced_nodes (near : Near l.count r.count) (balanced1 : l.Balanced)
    (balanced2 : r.Balanced) : (nodes v l r).Balanced := by
  rw [nodes_eq]
  exact ⟨near, balanced1, balanced2⟩

theorem count_nodes : (nodes v l r).count = l.count + r.count + 1 := by
  rw [nodes_eq]
  rfl

theorem balanced_singleL (exact : (Tree.node e n inner outer).Exact) (balanced1 : l.Balanced)
    (balanced2 : (Tree.node e n inner outer).Balanced) (off : Off l.count n)
    (heavy : wt l.count ≤ n) (some : 0 < outer.count) (smaller : inner.count < outer.count)
    (result : singleL v l (.node e n inner outer) = .ok t) : t.Balanced := by
  obtain ⟨near, balancedI, balancedO⟩ := balanced2
  rw [exact.1] at off heavy
  have ⟨nearI, nearO⟩ := near_single off heavy near (Nat.add_pos_right _ some) smaller
  cases result
  apply balanced_nodes _ (balanced_nodes nearI balanced1 balancedI) balancedO
  rwa [count_nodes]

theorem balanced_singleR (exact : (Tree.node e n outer inner).Exact)
    (balanced1 : (Tree.node e n outer inner).Balanced) (balanced2 : r.Balanced)
    (off : Off n r.count) (heavy : wt r.count ≤ n) (some : 0 < outer.count)
    (smaller : inner.count < outer.count)
    (result : singleR v (.node e n outer inner) r = .ok t) : t.Balanced := by
  obtain ⟨near, balancedO, balancedI⟩ := balanced1
  rw [exact.1, Nat.add_comm outer.count] at off heavy
  have ⟨nearI, nearO⟩ := near_single off.symm heavy near.symm
    (Nat.add_pos_right _ some) smaller
  cases result
  apply balanced_nodes _ balancedO (balanced_nodes nearI.symm balancedI balanced2)
  rw [count_nodes, Nat.add_comm inner.count]
  exact nearO.symm

theorem balanced_doubleL (exact : (Tree.node e n inner outer).Exact) (balanced1 : l.Balanced)
    (balanced2 : (Tree.node e n inner outer).Balanced) (off : Off l.count n)
    (heavy : wt l.count ≤ n) (larger : outer.count ≤ inner.count)
    (halves : Halves l.count inner outer.count)
    (result : doubleL v l (.node e n inner outer) = .ok t) : t.Balanced := by
  obtain ⟨near, balancedI, balancedO⟩ := balanced2
  cases inner with
  | empty => cases result
  | node b m x y =>
    obtain ⟨nearH, balancedX, balancedY⟩ := balancedI
    obtain ⟨nearX, nearY⟩ := halves
    have count : m = x.count + y.count + 1 := exact.2.1.1
    rw [exact.1, count_node, count] at off heavy
    rw [count_node, count] at near larger
    cases result
    apply balanced_nodes _ (balanced_nodes nearX balanced1 balancedX)
      (balanced_nodes nearY balancedY balancedO)
    rw [count_nodes, count_nodes]
    exact near_double off heavy nearH near larger

theorem balanced_doubleR (exact : (Tree.node e n outer inner).Exact)
    (balanced1 : (Tree.node e n outer inner).Balanced) (balanced2 : r.Balanced)
    (off : Off n r.count) (heavy : wt r.count ≤ n) (larger : outer.count ≤ inner.count)
    (halves : Halves outer.count inner r.count)
    (result : doubleR v (.node e n outer inner) r = .ok t) : t.Balanced := by
  obtain ⟨near, balancedO, balancedI⟩ := balanced1
  cases inner with
  | empty => cases result
  | node b m x y =>
    obtain ⟨nearH, balancedX, balancedY⟩ := balancedI
    obtain ⟨nearX, nearY⟩ := halves
    have count : m = y.count + x.count + 1 := by rw [exact.2.2.1, Nat.add_comm x.count]
    rw [exact.1, count_node, Nat.add_comm outer.count, count] at off heavy
    rw [count_node, count] at near larger
    cases result
    apply balanced_nodes _ (balanced_nodes nearX balancedO balancedX)
      (balanced_nodes nearY balancedY balanced2)
    have swapped := near_double off.symm heavy nearH.symm
      near.symm larger
    rw [count_nodes, count_nodes, Nat.add_comm outer.count, Nat.add_comm y.count]
    exact swapped.symm

theorem balanced_rebalance (exact1 : l.Exact) (exact2 : r.Exact) (balanced1 : l.Balanced)
    (balanced2 : r.Balanced) (off : Off l.count r.count) (fits : Fits l r) :
    ∀ t, rebalance v l r = .ok t → t.Balanced := by
  fun_cases rebalance v l r with
  | case1 =>
    rintro t ⟨⟩
    exact ⟨.inl ⟨rfl, Nat.zero_le 1⟩, trivial, trivial⟩
  | case2 e n =>
    rintro t ⟨⟩
    exact ⟨.inl ⟨rfl, exact2.1.le⟩, trivial, balanced2⟩
  | case3 e n =>
    rintro t ⟨⟩
    exact ⟨.inr (.inl ⟨rfl, exact1.1.le⟩), balanced1, trivial⟩
  | case4 e n e' ln l' r' =>
    intro t
    apply balanced_doubleL exact2 balanced1 balanced2 off (Nat.zero_le n) (Nat.zero_le _)
    rw [count_node, exact2.1] at off
    exact (halves_empty exact2.2.1 off (Nat.zero_le _)).1
  | case5 e n e' rn l' r' =>
    intro t
    apply balanced_doubleR exact1 balanced1 balanced2 off (Nat.zero_le n) (Nat.zero_le _)
    rw [count_node, exact1.1, Nat.add_comm (Tree.count _)] at off
    exact (halves_empty exact1.2.2 off.symm (Nat.zero_le _)).2
  | case6 e n e' ln l' r' e'' rn l'' r'' smaller =>
    intro t
    exact balanced_singleL exact2 balanced1 balanced2 off (Nat.zero_le n) exact2.2.2.count_pos
      smaller
  | case7 e n e' ln l' r' e'' rn l'' r'' larger =>
    intro t
    have larger : rn ≤ ln := Nat.not_lt.mp larger
    apply balanced_doubleL exact2 balanced1 balanced2 off (Nat.zero_le n) larger
    rw [count_node, exact2.1] at off
    exact (halves_empty exact2.2.1 off larger).1
  | case8 e n e' ln l' r' e'' rn l'' r'' smaller =>
    intro t
    exact balanced_singleR exact1 balanced1 balanced2 off (Nat.zero_le n) exact1.2.1.count_pos
      smaller
  | case9 e n e' ln l' r' e'' rn l'' r'' larger =>
    intro t
    have larger : ln ≤ rn := Nat.not_lt.mp larger
    apply balanced_doubleR exact1 balanced1 balanced2 off (Nat.zero_le n) larger
    rw [count_node, exact1.1, Nat.add_comm (Tree.count _)] at off
    exact (halves_empty exact1.2.2 off.symm larger).2
  | case10 e n outer leaf =>
    intro t
    cases outer with
    | empty => exact (leaf rfl).elim
    | node e' m x y =>
      exact balanced_singleL exact2 balanced1 balanced2 off (Nat.zero_le n)
        exact2.2.2.count_pos exact2.2.2.count_pos
  | case11 e n outer leaf =>
    intro t
    cases outer with
    | empty => exact (leaf rfl).elim
    | node e' m x y =>
      exact balanced_singleR exact1 balanced1 balanced2 off (Nat.zero_le n)
        exact1.2.1.count_pos exact1.2.1.count_pos
  | case12 lv ln ll lr rv rn rl rr heavy rln rrn smaller =>
    intro t
    exact balanced_singleL exact2 balanced1 balanced2 off heavy (Nat.zero_lt_of_lt smaller)
      smaller
  | case13 lv ln ll lr rv rn rl rr heavy rln rrn larger =>
    intro t
    apply balanced_doubleL exact2 balanced1 balanced2 off heavy (Nat.not_lt.mp larger)
    rwa [Fits, if_pos heavy, if_neg larger] at fits
  | case14 lv ln ll lr rv rn rl rr _ heavy lln lrn smaller =>
    intro t
    exact balanced_singleR exact1 balanced1 balanced2 off heavy (Nat.zero_lt_of_lt smaller)
      smaller
  | case15 lv ln ll lr rv rn rl rr light heavy lln lrn larger =>
    intro t
    apply balanced_doubleR exact1 balanced1 balanced2 off heavy (Nat.not_lt.mp larger)
    rwa [Fits, if_neg light, if_pos heavy, if_neg larger] at fits
  | case16 lv ln ll lr rv rn rl rr light light' =>
    rintro t ⟨⟩
    exact ⟨.inr (.inr ⟨Nat.not_le.mp light', Nat.not_le.mp light⟩), balanced1, balanced2⟩

theorem rebalance_balanced (exact1 : l.Exact) (exact2 : r.Exact) (balanced1 : l.Balanced)
    (balanced2 : r.Balanced) (off : Off l.count r.count) (fits : Fits l r) (v : α) :
    ∃ t, rebalance v l r = .ok t ∧ t.Exact ∧ t.Balanced ∧ t.count = l.count + r.count + 1 := by
  obtain ⟨t, made, exact, items⟩ := makes_rebalance v exact1 exact2
  refine ⟨t, made, exact, balanced_rebalance exact1 exact2 balanced1 balanced2 off fits t made, ?_⟩
  rw [← exact.length, items, List.length_append, List.length_cons, exact1.length, exact2.length,
    Nat.add_assoc]

def callOn (m : Except Raised (Tree α)) (trees : Tree α → Tree α × Tree α) :
    List (Tree α × Tree α) :=
  match m with
  | .ok t => [trees t]
  | .error _ => []

def delminCalls : Tree α → List (Tree α × Tree α)
  | .node _ _ .empty _ => []
  | .node _ _ l r => delminCalls l ++ callOn (delmin l) fun l' => (l', r)
  | .empty => []

def deleteCalls : Tree α → Tree α → List (Tree α × Tree α)
  | .empty, _ => []
  | _, .empty => []
  | l, r => delminCalls r ++ callOn (delmin r) fun r' => (l, r')

def AllFit (calls : List (Tree α × Tree α)) : Prop := ∀ c ∈ calls, Fits c.1 c.2

instance (calls : List (Tree α × Tree α)) : Decidable (AllFit calls) :=
  inferInstanceAs (Decidable (∀ c ∈ calls, Fits c.1 c.2))

theorem allFit_callOn {calls : List (Tree α × Tree α)} {m : Except Raised (Tree α)}
    {trees : Tree α → Tree α × Tree α} (fit : AllFit (calls ++ callOn m trees)) :
    AllFit calls ∧ ∀ t, m = .ok t → Fits (trees t).1 (trees t).2 := by
  constructor
  · intro c mem
    exact fit c (List.mem_append_left _ mem)
  · rintro t rfl
    exact fit (trees t) (List.mem_append_right _ (List.mem_singleton.mpr rfl))

theorem balanced_delmin (exact : t.Exact) (balanced : t.Balanced) (nonempty : 0 < t.count)
    (fit : AllFit (delminCalls t)) :
    ∃ t', delmin t = .ok t' ∧ t'.Exact ∧ t'.Balanced ∧ t'.count + 1 = t.count := by
  induction t with
  | empty => exact absurd nonempty (Nat.lt_irrefl 0)
  | node v n l r ihl _ =>
    obtain ⟨near, balancedL, balancedR⟩ := balanced
    obtain ⟨count, exactL, exactR⟩ := exact
    cases l with
    | empty => exact ⟨r, rfl, exactR, balancedR, by simp [count]⟩
    | node e m l' r' =>
      obtain ⟨fitL, fits⟩ := allFit_callOn fit
      obtain ⟨l'', made, exact, balanced, less⟩ := ihl exactL balancedL exactL.count_pos fitL
      rw [← less] at near count
      obtain ⟨t', made', exact', balanced', total⟩ := rebalance_balanced exact exactR balanced
        balancedR (.inr (.inl near)) (fits l'' made) v
      refine ⟨t', ?_, exact', balanced', ?_⟩
      · rw [delmin, made]
        · exact made'
        · intro equal
          cases equal
      · rw [count_node, count, total, Nat.add_right_comm l''.count]

theorem balanced_delete' (exact1 : l.Exact) (exact2 : r.Exact) (balanced1 : l.Balanced)
    (balanced2 : r.Balanced) (near : Near l.count r.count) (fit : AllFit (deleteCalls l r))
    (made : delete' l r = .ok t) : t.Exact ∧ t.Balanced ∧ t.count = l.count + r.count := by
  cases l with
  | empty =>
    cases made
    exact ⟨exact2, balanced2, (Nat.zero_add _).symm⟩
  | node e n l' r' =>
    cases r with
    | empty =>
      cases made
      exact ⟨exact1, balanced1, rfl⟩
    | node e' n' l'' r'' =>
      obtain ⟨fitR, fits⟩ := allFit_callOn fit
      obtain ⟨rest, removed, exact, balanced, less⟩ :=
        balanced_delmin exact2 balanced2 exact2.count_pos fitR
      rw [← less] at near ⊢
      obtain ⟨u, first, equal⟩ :=
        List.exists_cons_of_ne_nil (show (Tree.node e' n' l'' r'').items ≠ [] by simp)
      obtain ⟨t', made', exact', balanced', total⟩ := rebalance_balanced exact1 exact balanced1
        balanced (.inr (.inr (.inl near))) (fits rest removed) u
      rw [delete', min_ok equal, removed] at made
      · cases made'.symm.trans made
        exact ⟨exact', balanced', total⟩
      · intro equal
        cases equal
      · intro equal
        cases equal

end Trees

namespace Map
open SortedKeys

section Calls

variable {K X : Type} [Ord K]

def setCalls : Tree (K × X) → K → X → List (Tree (K × X) × Tree (K × X))
  | .empty, _, _ => []
  | .node (key, _) _ left right, x, v =>
      match compare key x with
      | .gt => setCalls left x v ++ callOn (set left x v) fun left' => (left', right)
      | .lt => setCalls right x v ++ callOn (set right x v) fun right' => (left, right')
      | _ => []

def dropCalls : Tree (K × X) → K → List (Tree (K × X) × Tree (K × X))
  | .empty, _ => []
  | .node (key, _) _ left right, x =>
      match compare key x with
      | .gt =>
          dropCalls left x ++ callOn ((drop left x).map Prod.fst) fun left' => (left', right)
      | .lt =>
          dropCalls right x ++ callOn ((drop right x).map Prod.fst) fun right' => (left, right')
      | _ => deleteCalls left right

inductive Step (K X : Type)
  | set (x : K) (v : X)
  | drop (x : K)

def Step.apply (m : Tree (K × X)) : Step K X → Except Raised (Tree (K × X))
  | .set x v => Map.set m x v
  | .drop x => do return (← Map.drop m x).1

def Step.calls (m : Tree (K × X)) : Step K X → List (Tree (K × X) × Tree (K × X))
  | .set x v => setCalls m x v
  | .drop x => dropCalls m x

def Step.Fits (m : Tree (K × X)) (s : Step K X) : Prop := AllFit (s.calls m)

instance (m : Tree (K × X)) (s : Step K X) : Decidable (s.Fits m) :=
  inferInstanceAs (Decidable (AllFit (s.calls m)))

/-- The maps obtained from `empty` by steps that meet a condition. -/
inductive Reached (condition : Tree (K × X) → Step K X → Prop) : Tree (K × X) → Prop
  | empty : Reached condition empty
  | step {m m' : Tree (K × X)} (reached : Reached condition m) (s : Step K X)
      (meets : condition m s) (applied : s.apply m = .ok m') : Reached condition m'

variable {m m' : Tree (K × X)}

theorem off_more {a a' b : Nat} (near : Near a b) (more : a' = a ∨ a' = a + 1) : Off a' b := by
  rcases more with rfl | rfl
  · exact .inl near
  · exact .inr (.inr (.inr (.inl ⟨Nat.succ_pos a, near⟩)))

theorem balanced_set (exact : m.Exact) (balanced : m.Balanced) (k : K) (v : X)
    (fit : AllFit (setCalls m k v)) : ∃ m', set m k v = .ok m' ∧ m'.Exact ∧ m'.Balanced ∧
      (m'.count = m.count ∨ m'.count = m.count + 1) := by
  induction m with
  | empty => exact ⟨_, rfl, ⟨rfl, trivial, trivial⟩, ⟨.inl ⟨rfl, Nat.zero_le 1⟩, trivial, trivial⟩,
      .inr rfl⟩
  | node kv n l r ihl ihr =>
    obtain ⟨near, balancedL, balancedR⟩ := balanced
    obtain ⟨count, exactL, exactR⟩ := exact
    rw [setCalls] at fit
    rw [set]
    split
    · rename_i more
      rw [more] at fit
      obtain ⟨fitL, fits⟩ := allFit_callOn fit
      obtain ⟨l', made, exact, balanced, counts⟩ := ihl exactL balancedL fitL
      obtain ⟨m', made', exact', balanced', total⟩ := rebalance_balanced exact exactR balanced
        balancedR (off_more near counts) (fits l' made) kv
      rw [made]
      refine ⟨m', made', exact', balanced', ?_⟩
      rw [total, count_node, count]
      omega
    · rename_i less
      rw [less] at fit
      obtain ⟨fitR, fits⟩ := allFit_callOn fit
      obtain ⟨r', made, exact, balanced, counts⟩ := ihr exactR balancedR fitR
      obtain ⟨m', made', exact', balanced', total⟩ := rebalance_balanced exactL exact balancedL
        balanced (off_more near.symm counts).symm (fits r' made) kv
      rw [made]
      refine ⟨m', made', exact', balanced', ?_⟩
      rw [total, count_node, count]
      omega
    · exact ⟨_, rfl, ⟨count, exactL, exactR⟩, ⟨near, balancedL, balancedR⟩, .inl rfl⟩

theorem balanced_drop {v : X} (exact : m.Exact) (balanced : m.Balanced) (k : K)
    (fit : AllFit (dropCalls m k)) (dropped : drop m k = .ok (m', v)) :
    m'.Exact ∧ m'.Balanced ∧ m'.count + 1 = m.count := by
  induction m generalizing m' v with
  | empty => cases dropped
  | node kv n l r ihl ihr =>
    obtain ⟨near, balancedL, balancedR⟩ := balanced
    obtain ⟨count, exactL, exactR⟩ := exact
    rw [dropCalls] at fit
    rw [drop] at dropped
    split at dropped
    · rename_i more
      rw [more] at fit
      obtain ⟨fitL, fits⟩ := allFit_callOn fit
      obtain ⟨⟨l', w⟩, made, dropped⟩ := bind_eq_ok.mp dropped
      obtain ⟨exact, balanced, less⟩ := ihl exactL balancedL fitL made
      rw [← less] at near count
      obtain ⟨m'', made', exact', balanced', total⟩ := rebalance_balanced exact exactR
        balanced balancedR (.inr (.inl near)) (fits l' (by rw [made]; rfl)) kv
      obtain ⟨_, made'', dropped⟩ := bind_eq_ok.mp dropped
      cases made'.symm.trans made''
      cases dropped
      rw [count_node, count, total, Nat.add_right_comm l'.count]
      exact ⟨exact', balanced', rfl⟩
    · rename_i less
      rw [less] at fit
      obtain ⟨fitR, fits⟩ := allFit_callOn fit
      obtain ⟨⟨r', w⟩, made, dropped⟩ := bind_eq_ok.mp dropped
      obtain ⟨exact, balanced, less⟩ := ihr exactR balancedR fitR made
      rw [← less] at near count
      obtain ⟨m'', made', exact', balanced', total⟩ := rebalance_balanced exactL exact
        balancedL balanced (.inr (.inr (.inl near))) (fits r' (by rw [made]; rfl)) kv
      obtain ⟨_, made'', dropped⟩ := bind_eq_ok.mp dropped
      cases made'.symm.trans made''
      cases dropped
      rw [count_node, count, total, Nat.add_assoc]
      exact ⟨exact', balanced', rfl⟩
    · rename_i more less
      have fit : AllFit (deleteCalls l r) := by
        cases order : compare kv.1 k with
        | lt => exact (less order).elim
        | gt => exact (more order).elim
        | eq => rwa [order] at fit
      obtain ⟨t, made, ⟨⟩⟩ := bind_pure_eq_ok.mp dropped
      obtain ⟨exact', balanced', total⟩ :=
        balanced_delete' exactL exactR balancedL balancedR near fit made
      rw [count_node, count, total]
      exact ⟨exact', balanced', rfl⟩

end Calls

section Steps

variable {K X : Type} [LinearOrder K] {m m' : Tree (K × X)}

theorem step_balanced {s : Step K X} (exact : m.Exact) (balanced : m.Balanced) (fits : s.Fits m)
    (applied : s.apply m = .ok m') : m'.Balanced := by
  cases s with
  | set x v =>
    obtain ⟨t, made, -, balanced', -⟩ := balanced_set exact balanced x v fits
    cases made.symm.trans applied
    exact balanced'
  | drop x =>
    obtain ⟨result, made, rfl⟩ := bind_pure_eq_ok.mp applied
    exact (balanced_drop exact balanced x fits made).2.1

theorem step_sound (s : Step K X) (exact : m.Exact) (sorted : Sorted Prod.fst m.items) :
    (∃ m', s.apply m = .ok m' ∧ m'.Exact ∧ Sorted Prod.fst m'.items) ∨
      s.apply m = .error .notFound := by
  cases s with
  | set x v =>
    obtain ⟨m', made, exact', items⟩ := makes_set exact sorted x v
    exact .inl ⟨m', made, exact', items ▸ sorted_around sorted (x, v)⟩
  | drop x =>
    rw [Step.apply]
    cases present : find Prod.fst x m.items with
    | none =>
      rw [drop_absent sorted present]
      exact .inr rfl
    | some kv =>
      obtain ⟨m', made, exact', items⟩ := drop_present exact sorted present
      rw [made]
      exact .inl ⟨m', rfl, exact', items ▸ sorted_without sorted x⟩

theorem reached_sound {condition : Tree (K × X) → Step K X → Prop} (reached : Reached condition m) :
    m.Exact ∧ Sorted Prod.fst m.items := by
  induction reached with
  | empty => exact ⟨trivial, .nil⟩
  | step reached s meets applied ih =>
    rcases step_sound s ih.1 ih.2 with ⟨m', made, exact, sorted⟩ | failed
    · cases made.symm.trans applied
      exact ⟨exact, sorted⟩
    · cases failed.symm.trans applied

theorem Reached.run {condition : Tree (K × X) → Step K X → Prop} (free : ∀ m s, condition m s)
    (reached : Reached condition m) {steps : List (Step K X)}
    (applied : steps.foldlM Step.apply m = .ok m') : Reached condition m' := by
  induction steps generalizing m with
  | nil =>
    cases applied
    exact reached
  | cons s rest ih =>
    obtain ⟨next, made, applied⟩ := bind_eq_ok.mp applied
    exact ih (reached.step s (free m s) made) applied

/-- In every run counts are exact, keys ascend and no rotation fails; the criterion holds of every
node as long as no double rotation leaves halves out of proportion. -/
theorem reached_balanced (K X : Type) [LinearOrder K] :
    (∀ m : Tree (K × X), Reached (fun _ _ => True) m →
      m.Exact ∧ Sorted Prod.fst m.items ∧ ∀ s : Step K X, s.apply m ≠ .error .noMatch) ∧
    ∀ m : Tree (K × X), Reached (fun m s => Step.Fits m s) m → m.Balanced := by
  constructor
  · intro m reached
    obtain ⟨exact, sorted⟩ := reached_sound reached
    refine ⟨exact, sorted, ?_⟩
    intro s failed
    rcases step_sound s exact sorted with ⟨m', made, -, -⟩ | absent
    · cases made.symm.trans failed
    · cases absent.symm.trans failed
  · intro m reached
    induction reached with
    | empty => trivial
    | step reached s fits applied ih => exact step_balanced (reached_sound reached).1 ih fits applied

theorem reached_balanced_double :
    (Tree.node (2, 0) 3 (.node (1, 0) 1 .empty .empty) (.node (3, 0) 1 .empty .empty)).Balanced :=
  (reached_balanced Nat Nat).2 _ (.step (.step (.step .empty (.set 1 0) (by decide) rfl)
    (.set 3 0) (by decide) rfl) (.set 2 0) (by decide) rfl)

/-- Once 1 is dropped, the inner subtree of 6 gives its empty half to a tree of two items. -/
theorem drop_unbalances :
    ¬∀ m : Tree (Nat × Nat), Reached (fun _ _ => True) m → m.Balanced := by
  intro always
  let leaf (k : Nat) : Tree (Nat × Nat) := .node (k, 0) 1 .empty .empty
  have applied : List.foldlM Step.apply empty
      (([3, 2, 6, 1, 5, 7, 4, 8].map fun k => .set k 0) ++ [.drop 1]) =
        .ok (.node (5, 0) 7 (.node (3, 0) 3 (leaf 2) (leaf 4))
          (.node (6, 0) 3 .empty (.node (7, 0) 2 .empty (leaf 8)))) := by rfl
  exact absurd (always _ (Reached.run (fun _ _ => trivial) .empty applied)) (by decide)

end Steps

end Map

end Mythryl.Binary
