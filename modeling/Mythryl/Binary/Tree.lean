import Mathlib.Data.List.Basic

/-!
# Binary trees of bounded balance

Search trees that keep the number of their items at each node, and the rotations with which
`rebalance` puts two subtrees and an item together.
-/

namespace Mythryl.Binary

inductive Raised
  | noMatch | notFound
  deriving DecidableEq, Repr

inductive Tree (α : Type)
  | empty
  | node (elt : α) (count : Nat) (left right : Tree α)
  deriving DecidableEq, Repr

section Operations

variable {α : Type}

theorem Tree.sizeOf_left (elt : α) (count : Nat) (left right : Tree α) :
    sizeOf left < sizeOf (Tree.node elt count left right) := by
  rw [Tree.node.sizeOf_spec]
  omega

theorem Tree.sizeOf_right (elt : α) (count : Nat) (left right : Tree α) :
    sizeOf right < sizeOf (Tree.node elt count left right) := by
  rw [Tree.node.sizeOf_spec]
  omega

def Tree.count : Tree α → Nat
  | .empty => 0
  | .node _ count _ _ => count

def nodes (v : α) : Tree α → Tree α → Tree α
  | .empty, .empty => .node v 1 .empty .empty
  | .empty, .node e n l r => .node v (n + 1) .empty (.node e n l r)
  | .node e n l r, .empty => .node v (n + 1) (.node e n l r) .empty
  | .node e n l r, .node e' m l' r' => .node v (n + m + 1) (.node e n l r) (.node e' m l' r')

def singleL (a : α) (x : Tree α) : Tree α → Except Raised (Tree α)
  | .node b _ y z => .ok (nodes b (nodes a x y) z)
  | _ => .error .noMatch

def singleR (b : α) : Tree α → Tree α → Except Raised (Tree α)
  | .node a _ x y, z => .ok (nodes a x (nodes b y z))
  | _, _ => .error .noMatch

def doubleL (a : α) (w : Tree α) : Tree α → Except Raised (Tree α)
  | .node c _ (.node b _ x y) z => .ok (nodes b (nodes a w x) (nodes c y z))
  | _ => .error .noMatch

def doubleR (c : α) : Tree α → Tree α → Except Raised (Tree α)
  | .node a _ w (.node b _ x y), z => .ok (nodes b (nodes a w x) (nodes c y z))
  | _, _ => .error .noMatch

def wt (i : Nat) : Nat := i + i + i

def rebalance (v : α) : Tree α → Tree α → Except Raised (Tree α)
  | .empty, .empty => .ok (.node v 1 .empty .empty)
  | .empty, .node e n .empty .empty => .ok (.node v 2 .empty (.node e n .empty .empty))
  | .node e n .empty .empty, .empty => .ok (.node v 2 (.node e n .empty .empty) .empty)
  | .empty, .node e n (.node e' ln l' r') .empty =>
      doubleL v .empty (.node e n (.node e' ln l' r') .empty)
  | .node e n .empty (.node e' rn l' r'), .empty =>
      doubleR v (.node e n .empty (.node e' rn l' r')) .empty
  | .empty, .node e n (.node e' ln l' r') (.node e'' rn l'' r'') =>
      if ln < rn then singleL v .empty (.node e n (.node e' ln l' r') (.node e'' rn l'' r''))
      else doubleL v .empty (.node e n (.node e' ln l' r') (.node e'' rn l'' r''))
  | .node e n (.node e' ln l' r') (.node e'' rn l'' r''), .empty =>
      if ln > rn then singleR v (.node e n (.node e' ln l' r') (.node e'' rn l'' r'')) .empty
      else doubleR v (.node e n (.node e' ln l' r') (.node e'' rn l'' r'')) .empty
  | .empty, .node e n .empty r => singleL v .empty (.node e n .empty r)
  | .node e n l .empty, .empty => singleR v (.node e n l .empty) .empty
  | .node lv ln ll lr, .node rv rn rl rr =>
      if rn ≥ wt ln then
        let rln := rl.count
        let rrn := rr.count
        if rln < rrn then singleL v (.node lv ln ll lr) (.node rv rn rl rr)
        else doubleL v (.node lv ln ll lr) (.node rv rn rl rr)
      else if ln ≥ wt rn then
        let lln := ll.count
        let lrn := lr.count
        if lrn < lln then singleR v (.node lv ln ll lr) (.node rv rn rl rr)
        else doubleR v (.node lv ln ll lr) (.node rv rn rl rr)
      else
        .ok (.node v (ln + rn + 1) (.node lv ln ll lr) (.node rv rn rl rr))

@[grind =] def min : Tree α → Except Raised α
  | .node v _ .empty _ => .ok v
  | .node _ _ l _ => min l
  | _ => .error .noMatch

@[grind =] def delmin : Tree α → Except Raised (Tree α)
  | .node _ _ .empty r => .ok r
  | .node v _ l r => do rebalance v (← delmin l) r
  | _ => .error .noMatch

def delete' : Tree α → Tree α → Except Raised (Tree α)
  | .empty, r => .ok r
  | l, .empty => .ok l
  | l, r => do rebalance (← min r) l (← delmin r)

@[grind =] def foldForward {β : Type} (f : α → β → β) : Tree α → β → β
  | .empty, b => b
  | .node elt _ left right, b => foldForward f right (f elt (foldForward f left b))

@[grind =] def foldBackward {β : Type} (f : α → β → β) : Tree α → β → β
  | .empty, b => b
  | .node elt _ left right, b => foldBackward f left (f elt (foldBackward f right b))

end Operations

section Items

variable {α β : Type} {v : α} {t l r : Tree α}

def Tree.items : Tree α → List α
  | .empty => []
  | .node v _ l r => l.items ++ v :: r.items

def Tree.Exact : Tree α → Prop
  | .empty => True
  | .node _ n l r => n = l.count + r.count + 1 ∧ l.Exact ∧ r.Exact

@[simp] theorem items_empty : (Tree.empty : Tree α).items = [] := rfl

variable {n : Nat}

@[simp] theorem items_node : (Tree.node v n l r).items = l.items ++ v :: r.items := rfl

@[simp] theorem count_empty : (Tree.empty : Tree α).count = 0 := rfl

@[simp] theorem count_node : (Tree.node v n l r).count = n := rfl

theorem Tree.Exact.length (exact : t.Exact) : t.items.length = t.count := by
  induction t with
  | empty => rfl
  | node v n l r ihl ihr =>
    rw [items_node, List.length_append, List.length_cons, ihl exact.2.1, ihr exact.2.2,
      count_node, exact.1]
    exact (Nat.add_assoc _ _ _).symm

theorem Tree.Exact.count_pos (exact : (Tree.node v n l r).Exact) : 0 < n := by
  rw [exact.1]
  exact Nat.succ_pos _

theorem nodes_eq (v : α) (l r : Tree α) : nodes v l r = .node v (l.count + r.count + 1) l r := by
  cases l <;> cases r <;> simp [nodes]

theorem foldForward_eq (f : α → β → β) (t : Tree α) (b : β) :
    foldForward f t b = t.items.foldl (fun b a => f a b) b := by
  induction t generalizing b with
  | empty => rfl
  | node v n l r ihl ihr => simp [foldForward, ihl, ihr]

theorem foldBackward_eq (f : α → β → β) (t : Tree α) (b : β) :
    foldBackward f t b = t.items.foldr f b := by
  induction t generalizing b with
  | empty => rfl
  | node v n l r ihl ihr => simp [foldBackward, ihl, ihr]

def Makes (m : Except Raised (Tree α)) (items : List α) : Prop :=
  ∃ t, m = .ok t ∧ t.Exact ∧ t.items = items

theorem makes_ok (exact : t.Exact) : Makes (.ok t) t.items := ⟨t, rfl, exact, rfl⟩

theorem makes_nodes (exact1 : l.Exact) (exact2 : r.Exact) :
    Makes (.ok (nodes v l r)) (l.items ++ v :: r.items) := by
  rw [nodes_eq]
  exact ⟨_, rfl, ⟨rfl, exact1, exact2⟩, rfl⟩

theorem Makes.bind {m : Except Raised (Tree α)} {f : Tree α → Except Raised (Tree α)}
    {items items' : List α} (makes : Makes m items)
    (rest : ∀ t, t.Exact → t.items = items → Makes (f t) items') : Makes (m >>= f) items' := by
  obtain ⟨t, rfl, exact, equal⟩ := makes
  exact rest t exact equal

theorem makes_singleL (exact1 : l.Exact) (exact2 : r.Exact) (nonempty : 0 < r.count) :
    Makes (singleL v l r) (l.items ++ v :: r.items) := by
  cases r with
  | empty => exact absurd nonempty (Nat.lt_irrefl 0)
  | node b n y z =>
    rw [singleL, nodes_eq, nodes_eq]
    exact ⟨_, rfl, ⟨rfl, ⟨rfl, exact1, exact2.2.1⟩, exact2.2.2⟩, by simp⟩

theorem makes_singleR (exact1 : l.Exact) (exact2 : r.Exact) (nonempty : 0 < l.count) :
    Makes (singleR v l r) (l.items ++ v :: r.items) := by
  cases l with
  | empty => exact absurd nonempty (Nat.lt_irrefl 0)
  | node b n y z =>
    rw [singleR, nodes_eq, nodes_eq]
    exact ⟨_, rfl, ⟨rfl, exact1.2.1, ⟨rfl, exact1.2.2, exact2⟩⟩, by simp⟩

theorem makes_doubleL {c : α} {inner : Tree α} (exact1 : l.Exact)
    (exact2 : (Tree.node c n inner r).Exact) (nonempty : 0 < inner.count) :
    Makes (doubleL v l (.node c n inner r)) (l.items ++ v :: (Tree.node c n inner r).items) := by
  cases inner with
  | empty => exact absurd nonempty (Nat.lt_irrefl 0)
  | node b m x y =>
    obtain ⟨-, ⟨-, exactX, exactY⟩, exactR⟩ := exact2
    rw [doubleL, nodes_eq, nodes_eq, nodes_eq]
    exact ⟨_, rfl, ⟨rfl, ⟨rfl, exact1, exactX⟩, ⟨rfl, exactY, exactR⟩⟩, by simp⟩

theorem makes_doubleR {c : α} {inner : Tree α}
    (exact1 : (Tree.node c n l inner).Exact) (exact2 : r.Exact) (nonempty : 0 < inner.count) :
    Makes (doubleR v (.node c n l inner) r) ((Tree.node c n l inner).items ++ v :: r.items) := by
  cases inner with
  | empty => exact absurd nonempty (Nat.lt_irrefl 0)
  | node b m x y =>
    obtain ⟨-, exactL, -, exactX, exactY⟩ := exact1
    rw [doubleR, nodes_eq, nodes_eq, nodes_eq]
    exact ⟨_, rfl, ⟨rfl, ⟨rfl, exactL, exactX⟩, ⟨rfl, exactY, exact2⟩⟩, by simp⟩

theorem makes_rebalance (v : α) (exact1 : l.Exact) (exact2 : r.Exact) :
    Makes (rebalance v l r) (l.items ++ v :: r.items) := by
  fun_cases rebalance v l r with
  | case1 => exact ⟨_, rfl, ⟨rfl, trivial, trivial⟩, rfl⟩
  | case2 e n => exact ⟨_, rfl, ⟨by rw [count_node, exact2.1]; rfl, trivial, exact2⟩, rfl⟩
  | case3 e n => exact ⟨_, rfl, ⟨by rw [count_node, exact1.1]; rfl, exact1, trivial⟩, rfl⟩
  | case4 e n e' ln l' r' => exact makes_doubleL exact1 exact2 exact2.2.1.count_pos
  | case5 e n e' rn l' r' => exact makes_doubleR exact1 exact2 exact1.2.2.count_pos
  | case6 => exact makes_singleL exact1 exact2 exact2.count_pos
  | case7 => exact makes_doubleL exact1 exact2 exact2.2.1.count_pos
  | case8 => exact makes_singleR exact1 exact2 exact1.count_pos
  | case9 => exact makes_doubleR exact1 exact2 exact1.2.2.count_pos
  | case10 => exact makes_singleL exact1 exact2 exact2.count_pos
  | case11 => exact makes_singleR exact1 exact2 exact1.count_pos
  | case12 => exact makes_singleL exact1 exact2 exact2.count_pos
  | case13 lv ln ll lr rv rn rl rr heavy rln rrn inner =>
    have pos := exact1.count_pos
    have sum := exact2.1
    unfold wt at heavy
    exact makes_doubleL exact1 exact2 (by omega)
  | case14 => exact makes_singleR exact1 exact2 exact1.count_pos
  | case15 lv ln ll lr rv rn rl rr _ heavy lln lrn inner =>
    have pos := exact2.count_pos
    have sum := exact1.1
    unfold wt at heavy
    exact makes_doubleR exact1 exact2 (by omega)
  | case16 => exact ⟨_, rfl, ⟨rfl, exact1, exact2⟩, rfl⟩

theorem min_ok {rest : List α} (first : t.items = v :: rest) : min t = .ok v := by
  induction t generalizing rest with
  | empty => cases first
  | node w n l r ihl _ =>
    cases l with
    | empty =>
      cases first
      rfl
    | node e m l' r' =>
      obtain ⟨u, rest', equal⟩ :=
        List.exists_cons_of_ne_nil (show (Tree.node e m l' r').items ≠ [] by simp)
      rw [items_node, equal] at first
      cases first
      rw [min]
      · exact ihl equal
      · intro equal
        cases equal

theorem makes_delmin (exact : t.Exact) (nonempty : 0 < t.count) :
    Makes (delmin t) t.items.tail := by
  induction t with
  | empty => exact absurd nonempty (Nat.lt_irrefl 0)
  | node v n l r ihl _ =>
    cases l with
    | empty => exact makes_ok exact.2.2
    | node e m l' r' =>
      have some : (Tree.node e m l' r').items ≠ [] := by simp
      rw [delmin]
      · apply (ihl exact.2.1 exact.2.1.count_pos).bind
        intro t exact' equal
        rw [items_node, List.tail_append_of_ne_nil some, ← equal]
        exact makes_rebalance v exact' exact.2.2
      · intro equal
        cases equal

theorem makes_delete' (exact1 : l.Exact) (exact2 : r.Exact) :
    Makes (delete' l r) (l.items ++ r.items) := by
  fun_cases delete' l r with
  | case1 => exact makes_ok exact2
  | case2 =>
    rw [items_empty, List.append_nil]
    exact makes_ok exact1
  | case3 l r _ nonempty =>
    cases r with
    | empty => exact absurd rfl nonempty
    | node e m l' r' =>
      obtain ⟨u, rest, equal⟩ :=
        List.exists_cons_of_ne_nil (show (Tree.node e m l' r').items ≠ [] by simp)
      rw [min_ok equal]
      apply (makes_delmin exact2 exact2.count_pos).bind
      intro t exact equal'
      rw [equal, ← @List.tail_cons _ u rest, ← equal, ← equal']
      exact makes_rebalance u exact1 exact

end Items

end Mythryl.Binary
