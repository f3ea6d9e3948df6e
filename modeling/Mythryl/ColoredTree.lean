import Mathlib.Data.List.Basic
import Mathlib.Tactic.Ring

/-! # Coloured binary trees -/

namespace ColoredTree

inductive Color
  | red | black
  deriving DecidableEq, Repr

inductive ColorTree (β : Type)
  | empty
  | node (color : Color) (left : ColorTree β) (item : β) (right : ColorTree β)
  deriving DecidableEq, Repr

namespace ColorTree

variable {β : Type}

def size : ColorTree β → Nat
  | .empty => 0
  | .node _ left _ right => left.size + right.size + 1

def height : ColorTree β → Nat
  | .empty => 0
  | .node _ left _ right => max left.height right.height + 1

def rootColor : ColorTree β → Color
  | .empty => .black
  | .node color _ _ _ => color

def stored : ColorTree β → List β
  | .empty => []
  | .node _ left item right => stored left ++ item :: stored right

def blacken : ColorTree β → ColorTree β
  | .node .red left item right => .node .black left item right
  | tree => tree

@[simp] theorem size_blacken (tree : ColorTree β) : tree.blacken.size = tree.size := by
  unfold blacken
  split <;> rfl

end ColorTree

/-- How the content `a` of a node is stored between its subtrees. -/
structure Layout (α β : Type) where
  stored : ColorTree β → α → ColorTree β → β
  content : β → α
  content_stored : ∀ left a right, content (stored left a right) = a

namespace Layout

variable {α β : Type} (L : Layout α β)

attribute [simp] Layout.content_stored

def plain (α : Type) : Layout α α where
  stored := fun _ a _ => a
  content := id
  content_stored := fun _ _ _ => rfl

def node (color : Color) (left : ColorTree β) (a : α) (right : ColorTree β) : ColorTree β :=
  .node color left (L.stored left a right) right

def items : ColorTree β → List α
  | .empty => []
  | .node _ left item right => items left ++ L.content item :: items right

@[simp] theorem items_empty : L.items .empty = [] := rfl

@[simp] theorem items_tree_node (color : Color) (left right : ColorTree β) (item : β) :
    L.items (.node color left item right) = L.items left ++ L.content item :: L.items right := rfl

@[simp] theorem items_node (color : Color) (left right : ColorTree β) (a : α) :
    L.items (L.node color left a right) = L.items left ++ a :: L.items right := by
  simp [node]

@[simp] theorem size_node (color : Color) (left right : ColorTree β) (a : α) :
    (L.node color left a right).size = left.size + right.size + 1 := rfl

@[simp] theorem items_blacken (tree : ColorTree β) : L.items tree.blacken = L.items tree := by
  unfold ColorTree.blacken
  split <;> simp

theorem items_eq_map (tree : ColorTree β) : L.items tree = tree.stored.map L.content := by
  induction tree with
  | empty => rfl
  | node color left item right left_ih right_ih =>
    rw [items_tree_node, ColorTree.stored, left_ih, right_ih, List.map_append, List.map_cons]

theorem filter_items (p : α → Bool) (tree : ColorTree β) :
    (L.items tree).filter p = (tree.stored.filter fun item => p (L.content item)).map L.content := by
  rw [items_eq_map, List.filter_map]
  rfl

theorem length_items (tree : ColorTree β) : (L.items tree).length = tree.size := by
  induction tree with
  | empty => rfl
  | node color left item right left_ih right_ih =>
    rw [items_tree_node, List.length_append, List.length_cons, left_ih, right_ih, ColorTree.size]
    ring

/-- Every item of the tree is what the layout stores at its node. -/
inductive Exact : ColorTree β → Prop
  | empty : Exact .empty
  | node {left right : ColorTree β} (color : Color) (a : α) (hl : Exact left) (hr : Exact right) :
      Exact (L.node color left a right)

theorem Exact.tree_node {L : Layout α β} {color : Color} {left right : ColorTree β} {item : β}
    (exact : L.Exact (.node color left item right)) :
    L.Exact left ∧ L.Exact right ∧ item = L.stored left (L.content item) right := by
  generalize eq : ColorTree.node color left item right = tree at exact
  cases exact with
  | empty => cases eq
  | node color a hl hr =>
    cases eq
    exact ⟨hl, hr, by simp⟩

theorem Exact.blacken {L : Layout α β} {tree : ColorTree β} (exact : L.Exact tree) :
    L.Exact tree.blacken := by
  cases exact with
  | empty => exact .empty
  | node color a hl hr => cases color <;> exact .node .black a hl hr

end Layout

/-- No red node has a red child, and every path down from the root meets `n` black nodes. The
colour is that of the root. -/
inductive Balanced {β : Type} : ColorTree β → Color → Nat → Prop
  | empty : Balanced .empty .black 0
  | red {left right : ColorTree β} {n : Nat} (item : β) (hl : Balanced left .black n)
      (hr : Balanced right .black n) : Balanced (.node .red left item right) .red n
  | black {left right : ColorTree β} {n : Nat} {c c' : Color} (item : β) (hl : Balanced left c n)
      (hr : Balanced right c' n) : Balanced (.node .black left item right) .black (n + 1)

namespace Balanced

variable {β : Type} {tree left right : ColorTree β} {item : β} {c : Color} {n : Nat}

theorem of_red (h : Balanced (.node .red left item right) c n) :
    c = .red ∧ Balanced left .black n ∧ Balanced right .black n := by
  cases h with
  | red item hl hr => exact ⟨rfl, hl, hr⟩

theorem of_empty (h : Balanced (.empty : ColorTree β) c n) : c = .black ∧ n = 0 := by
  cases h
  exact ⟨rfl, rfl⟩

theorem blacken (h : Balanced tree c n) : ∃ m, Balanced tree.blacken .black m := by
  cases h with
  | empty => exact ⟨0, .empty⟩
  | red item hl hr => exact ⟨_, .black item hl hr⟩
  | black item hl hr => exact ⟨_, .black item hl hr⟩

theorem height_le (h : Balanced tree c n) : tree.height ≤ 2 * n + (if c = .red then 1 else 0) := by
  induction h with
  | empty => simp [ColorTree.height]
  | red item hl hr left_ih right_ih =>
    simp only [ColorTree.height, reduceIte] at *
    simp at left_ih right_ih
    omega
  | @black left right n c c' item hl hr left_ih right_ih =>
    have below (d : Color) : (if d = .red then 1 else 0) ≤ 1 := by split <;> omega
    have := below c
    have := below c'
    simp [ColorTree.height]
    omega

theorem two_pow_le (h : Balanced tree c n) : 2 ^ n ≤ tree.size + 1 := by
  induction h with
  | empty => simp [ColorTree.size]
  | red item hl hr left_ih right_ih =>
    simp only [ColorTree.size]
    omega
  | black item hl hr left_ih right_ih =>
    simp only [ColorTree.size]
    rw [pow_succ]
    omega

theorem two_pow_height_le (h : Balanced tree .black n) : 2 ^ tree.height ≤ (tree.size + 1) ^ 2 := by
  have low : tree.height ≤ 2 * n := by simpa using h.height_le
  calc 2 ^ tree.height ≤ 2 ^ (2 * n) := Nat.pow_le_pow_right (by omega) low
    _ = (2 ^ n) ^ 2 := by rw [Nat.mul_comm, pow_mul]
    _ ≤ (tree.size + 1) ^ 2 := Nat.pow_le_pow_left h.two_pow_le 2

end Balanced

end ColoredTree
