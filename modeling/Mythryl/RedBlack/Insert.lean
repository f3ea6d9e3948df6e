import Mythryl.ColoredTree
import Mythryl.SortedKeys

/-!
# Insertion in a red-black tree

The maps and sets of the library share one insertion (`set''`, `ins`): it steps over a red child and
the black parent together, and rotates on the way back where the grandchild comes back red.
-/

namespace Mythryl.RedBlack
open ColoredTree SortedKeys

variable {α β K : Type} (L : Layout α β)

def rebuildLeftLeft (c : ColorTree β) (z : α) (d : ColorTree β) (y : α) (b : ColorTree β) : ColorTree β :=
  match c with
  | .node .red e w f => L.node .red (L.node .black e (L.content w) f) z (L.node .black d y b)
  | c => L.node .black (L.node .red c z d) y b

def rebuildLeftRight (c : ColorTree β) (z : α) (d : ColorTree β) (y : α) (b : ColorTree β) : ColorTree β :=
  match d with
  | .node .red e w f => L.node .red (L.node .black c z e) (L.content w) (L.node .black f y b)
  | d => L.node .black (L.node .red c z d) y b

def rebuildRightLeft (a : ColorTree β) (y : α) (c : ColorTree β) (z : α) (d : ColorTree β) : ColorTree β :=
  match c with
  | .node .red e w f => L.node .red (L.node .black a y e) (L.content w) (L.node .black f z d)
  | c => L.node .black a y (L.node .red c z d)

def rebuildRightRight (a : ColorTree β) (y : α) (c : ColorTree β) (z : α) (d : ColorTree β) : ColorTree β :=
  match d with
  | .node .red e w f => L.node .red (L.node .black a y c) z (L.node .black e (L.content w) f)
  | d => L.node .black a y (L.node .red c z d)

section Rebuild

variable (a b c d : ColorTree β) (y z : α)

@[simp] theorem items_rebuildLeftLeft :
    L.items (rebuildLeftLeft L c z d y b) = L.items c ++ z :: L.items d ++ y :: L.items b := by
  unfold rebuildLeftLeft
  split <;> simp

@[simp] theorem items_rebuildLeftRight :
    L.items (rebuildLeftRight L c z d y b) = L.items c ++ z :: L.items d ++ y :: L.items b := by
  unfold rebuildLeftRight
  split <;> simp

@[simp] theorem items_rebuildRightLeft :
    L.items (rebuildRightLeft L a y c z d) = L.items a ++ y :: (L.items c ++ z :: L.items d) := by
  unfold rebuildRightLeft
  split <;> simp

@[simp] theorem items_rebuildRightRight :
    L.items (rebuildRightRight L a y c z d) = L.items a ++ y :: (L.items c ++ z :: L.items d) := by
  unfold rebuildRightRight
  split <;> simp

variable {a b c d} {L}

theorem exact_rebuildLeftLeft (hc : L.Exact c) (hd : L.Exact d) (hb : L.Exact b) :
    L.Exact (rebuildLeftLeft L c z d y b) := by
  unfold rebuildLeftLeft
  split
  · obtain ⟨he, hf, -⟩ := hc.tree_node
    exact .node .red z (.node .black _ he hf) (.node .black y hd hb)
  · exact .node .black y (.node .red z hc hd) hb

theorem exact_rebuildLeftRight (hc : L.Exact c) (hd : L.Exact d) (hb : L.Exact b) :
    L.Exact (rebuildLeftRight L c z d y b) := by
  unfold rebuildLeftRight
  split
  · obtain ⟨he, hf, -⟩ := hd.tree_node
    exact .node .red _ (.node .black z hc he) (.node .black y hf hb)
  · exact .node .black y (.node .red z hc hd) hb

theorem exact_rebuildRightLeft (ha : L.Exact a) (hc : L.Exact c) (hd : L.Exact d) :
    L.Exact (rebuildRightLeft L a y c z d) := by
  unfold rebuildRightLeft
  split
  · obtain ⟨he, hf, -⟩ := hc.tree_node
    exact .node .red _ (.node .black y ha he) (.node .black z hf hd)
  · exact .node .black y ha (.node .red z hc hd)

theorem exact_rebuildRightRight (ha : L.Exact a) (hc : L.Exact c) (hd : L.Exact d) :
    L.Exact (rebuildRightRight L a y c z d) := by
  unfold rebuildRightRight
  split
  · obtain ⟨he, hf, -⟩ := hd.tree_node
    exact .node .red z (.node .black y ha hc) (.node .black _ he hf)
  · exact .node .black y ha (.node .red z hc hd)

variable {n : Nat} {k k' : Color}

theorem black_of_not_red {t : ColorTree β} (h : Balanced t k n)
    (not : ∀ e w f, t = .node .red e w f → False) : Balanced t .black n := by
  cases h with
  | empty => exact .empty
  | red item hl hr => exact (not _ _ _ rfl).elim
  | black item hl hr => exact .black item hl hr

theorem balanced_rebuildLeftLeft (hc : Balanced c k n) (hd : Balanced d .black n)
    (hb : Balanced b k' n) : ∃ k'', Balanced (rebuildLeftLeft L c z d y b) k'' (n + 1) := by
  unfold rebuildLeftLeft
  split
  · obtain ⟨-, he, hf⟩ := hc.of_red
    exact ⟨.red, .red _ (.black _ he hf) (.black _ hd hb)⟩
  · next not => exact ⟨.black, .black _ (.red _ (black_of_not_red hc not) hd) hb⟩

theorem balanced_rebuildLeftRight (hc : Balanced c .black n) (hd : Balanced d k n)
    (hb : Balanced b k' n) : ∃ k'', Balanced (rebuildLeftRight L c z d y b) k'' (n + 1) := by
  unfold rebuildLeftRight
  split
  · obtain ⟨-, he, hf⟩ := hd.of_red
    exact ⟨.red, .red _ (.black _ hc he) (.black _ hf hb)⟩
  · next not => exact ⟨.black, .black _ (.red _ hc (black_of_not_red hd not)) hb⟩

theorem balanced_rebuildRightLeft (ha : Balanced a k' n) (hc : Balanced c k n)
    (hd : Balanced d .black n) : ∃ k'', Balanced (rebuildRightLeft L a y c z d) k'' (n + 1) := by
  unfold rebuildRightLeft
  split
  · obtain ⟨-, he, hf⟩ := hc.of_red
    exact ⟨.red, .red _ (.black _ ha he) (.black _ hf hd)⟩
  · next not => exact ⟨.black, .black _ ha (.red _ (black_of_not_red hc not) hd)⟩

theorem balanced_rebuildRightRight (ha : Balanced a k' n) (hc : Balanced c .black n)
    (hd : Balanced d k n) : ∃ k'', Balanced (rebuildRightRight L a y c z d) k'' (n + 1) := by
  unfold rebuildRightRight
  split
  · obtain ⟨-, he, hf⟩ := hd.of_red
    exact ⟨.red, .red _ (.black _ ha hc) (.black _ he hf)⟩
  · next not => exact ⟨.black, .black _ ha (.red _ hc (black_of_not_red hd not))⟩

end Rebuild

section Walk

variable [Ord K] (key : α → K)

def insertItem (x : α) : ColorTree β → ColorTree β
  | .empty => L.node .red .empty x .empty
  | .node color a y b =>
      match compare (key x) (key (L.content y)) with
      | .lt =>
          match a with
          | .node .red c z d =>
              match compare (key x) (key (L.content z)) with
              | .lt => rebuildLeftLeft L (insertItem x c) (L.content z) d (L.content y) b
              | .eq => L.node color (L.node .red c x d) (L.content y) b
              | .gt => rebuildLeftRight L c (L.content z) (insertItem x d) (L.content y) b
          | a => L.node .black (insertItem x a) (L.content y) b
      | .eq => L.node color a x b
      | .gt =>
          match b with
          | .node .red c z d =>
              match compare (key x) (key (L.content z)) with
              | .lt => rebuildRightLeft L a (L.content y) (insertItem x c) (L.content z) d
              | .eq => L.node color a (L.content y) (L.node .red c x d)
              | .gt => rebuildRightRight L a (L.content y) c (L.content z) (insertItem x d)
          | b => L.node .black a (L.content y) (insertItem x b)

def insertItemCounting (nItems : Int) (x : α) : ColorTree β → StateM Int (ColorTree β)
  | .empty => do
      set (nItems + 1)
      return L.node .red .empty x .empty
  | .node color a y b =>
      match compare (key x) (key (L.content y)) with
      | .lt =>
          match a with
          | .node .red c z d =>
              match compare (key x) (key (L.content z)) with
              | .lt => return rebuildLeftLeft L (← insertItemCounting nItems x c) (L.content z) d (L.content y) b
              | .eq => return L.node color (L.node .red c x d) (L.content y) b
              | .gt => return rebuildLeftRight L c (L.content z) (← insertItemCounting nItems x d) (L.content y) b
          | a => return L.node .black (← insertItemCounting nItems x a) (L.content y) b
      | .eq => return L.node color a x b
      | .gt =>
          match b with
          | .node .red c z d =>
              match compare (key x) (key (L.content z)) with
              | .lt => return rebuildRightLeft L a (L.content y) (← insertItemCounting nItems x c) (L.content z) d
              | .eq => return L.node color a (L.content y) (L.node .red c x d)
              | .gt => return rebuildRightRight L a (L.content y) c (L.content z) (← insertItemCounting nItems x d)
          | b => return L.node .black a (L.content y) (← insertItemCounting nItems x b)

attribute [elab_as_elim] insertItem.induct_unfolding

def contains (k : K) : ColorTree β → Bool
  | .empty => false
  | .node _ a y b =>
      match compare k (key (L.content y)) with
      | .lt => contains k a
      | .eq => true
      | .gt => contains k b

theorem insertItemCounting_run (nItems n : Int) (x : α) (t : ColorTree β) :
    (insertItemCounting L key nItems x t).run n =
      (insertItem L key x t, if contains L key (key x) t then n else nItems + 1) := by
  fun_induction insertItemCounting L key nItems x t with
  | case1 => rfl
  | _ =>
    rw [insertItem.eq_def]
    simp_all only [contains, StateT.run_pure, bind_pure_comp, StateT.run_map]
    rfl

variable {L key}

theorem size_insertItem (x : α) (t : ColorTree β) :
    (insertItem L key x t).size = if contains L key (key x) t then t.size else t.size + 1 := by
  rw [← L.length_items, ← L.length_items]
  fun_induction insertItem L key x t with
  | case1 => rfl
  | _ =>
    simp_all only [contains, Layout.items_node, items_rebuildLeftLeft, items_rebuildLeftRight,
      items_rebuildRightLeft, items_rebuildRightRight, Layout.items_tree_node,
      List.length_append, List.length_cons, reduceIte] <;> split <;> omega

variable {t : ColorTree β}

theorem exact_insertItem (x : α) (exact : L.Exact t) : L.Exact (insertItem L key x t) := by
  fun_induction insertItem L key x t with
  | case1 => exact .node .red x .empty .empty
  | case2 color y b _ c z d _ ih =>
    obtain ⟨ha, hb, -⟩ := exact.tree_node
    obtain ⟨hc, hd, -⟩ := ha.tree_node
    exact exact_rebuildLeftLeft _ _ (ih hc) hd hb
  | case3 color y b _ c z d _ =>
    obtain ⟨ha, hb, -⟩ := exact.tree_node
    obtain ⟨hc, hd, -⟩ := ha.tree_node
    exact .node color _ (.node .red x hc hd) hb
  | case4 color y b _ c z d _ ih =>
    obtain ⟨ha, hb, -⟩ := exact.tree_node
    obtain ⟨hc, hd, -⟩ := ha.tree_node
    exact exact_rebuildLeftRight _ _ hc (ih hd) hb
  | case5 color y b _ a _ ih =>
    obtain ⟨ha, hb, -⟩ := exact.tree_node
    exact .node .black _ (ih ha) hb
  | case6 color a y b _ =>
    obtain ⟨ha, hb, -⟩ := exact.tree_node
    exact .node color x ha hb
  | case7 color a y _ c z d _ ih =>
    obtain ⟨ha, hb, -⟩ := exact.tree_node
    obtain ⟨hc, hd, -⟩ := hb.tree_node
    exact exact_rebuildRightLeft _ _ ha (ih hc) hd
  | case8 color a y _ c z d _ =>
    obtain ⟨ha, hb, -⟩ := exact.tree_node
    obtain ⟨hc, hd, -⟩ := hb.tree_node
    exact .node color _ ha (.node .red x hc hd)
  | case9 color a y _ c z d _ ih =>
    obtain ⟨ha, hb, -⟩ := exact.tree_node
    obtain ⟨hc, hd, -⟩ := hb.tree_node
    exact exact_rebuildRightRight _ _ ha hc (ih hd)
  | case10 color a y _ b _ ih =>
    obtain ⟨ha, hb, -⟩ := exact.tree_node
    exact .node .black _ ha (ih hb)

theorem balanced_insertItem (x : α) {n : Nat} (h : Balanced t .black n) :
    ∃ k, Balanced (insertItem L key x t) k n := by
  fun_induction insertItem L key x t generalizing n with
  | case1 =>
    obtain ⟨-, rfl⟩ := h.of_empty
    exact ⟨.red, .red _ .empty .empty⟩
  | case2 color y b _ c z d _ ih =>
    cases h with
    | black _ ha hb =>
      obtain ⟨rfl, hc, hd⟩ := ha.of_red
      obtain ⟨k, hc'⟩ := ih hc
      exact balanced_rebuildLeftLeft _ _ hc' hd hb
  | case3 color y b _ c z d _ =>
    cases h with
    | black _ ha hb =>
      obtain ⟨rfl, hc, hd⟩ := ha.of_red
      exact ⟨.black, .black _ (.red _ hc hd) hb⟩
  | case4 color y b _ c z d _ ih =>
    cases h with
    | black _ ha hb =>
      obtain ⟨rfl, hc, hd⟩ := ha.of_red
      obtain ⟨k, hd'⟩ := ih hd
      exact balanced_rebuildLeftRight _ _ hc hd' hb
  | case5 color y b _ a notRed ih =>
    cases h with
    | black _ ha hb =>
      obtain ⟨k, ha'⟩ := ih (black_of_not_red ha notRed)
      exact ⟨.black, .black _ ha' hb⟩
  | case6 color a y b _ =>
    cases h with
    | black _ ha hb => exact ⟨.black, .black _ ha hb⟩
  | case7 color a y _ c z d _ ih =>
    cases h with
    | black _ ha hb =>
      obtain ⟨rfl, hc, hd⟩ := hb.of_red
      obtain ⟨k, hc'⟩ := ih hc
      exact balanced_rebuildRightLeft _ _ ha hc' hd
  | case8 color a y _ c z d _ =>
    cases h with
    | black _ ha hb =>
      obtain ⟨rfl, hc, hd⟩ := hb.of_red
      exact ⟨.black, .black _ ha (.red _ hc hd)⟩
  | case9 color a y _ c z d _ ih =>
    cases h with
    | black _ ha hb =>
      obtain ⟨rfl, hc, hd⟩ := hb.of_red
      obtain ⟨k, hd'⟩ := ih hd
      exact balanced_rebuildRightRight _ _ ha hc hd'
  | case10 color a y _ b notRed ih =>
    cases h with
    | black _ ha hb =>
      obtain ⟨k, hb'⟩ := ih (black_of_not_red hb notRed)
      exact ⟨.black, .black _ ha hb'⟩

theorem balanced_insertItem_red (x : α) (h : Balanced t .red 0) :
    ∃ k n, Balanced (insertItem L key x t) k n := by
  cases h with
  | red y ha hb =>
    cases ha
    cases hb
    rw [insertItem.eq_def]
    dsimp only
    split
    · exact ⟨.black, 1, .black _ (.red _ .empty .empty) .empty⟩
    · exact ⟨.red, 0, .red _ .empty .empty⟩
    · exact ⟨.black, 1, .black _ .empty (.red _ .empty .empty)⟩

end Walk

section Ordered

variable [LinearOrder K] {L : Layout α β} {key : α → K} {t : ColorTree β}

theorem items_insertItem (x : α) (sorted : Sorted key (L.items t)) :
    L.items (insertItem L key x t) =
      below key (key x) (L.items t) ++ x :: above key (key x) (L.items t) := by
  fun_induction insertItem L key x t with
  | case1 => simp [below, above]
  | case2 color y b lt c z d ltZ ih =>
    rw [compare_lt_iff_lt] at lt ltZ
    obtain ⟨inner, -⟩ := sorted.node
    obtain ⟨innerC, -⟩ := inner.node
    rw [items_rebuildLeftLeft, ih innerC, Layout.items_tree_node, below_left sorted lt,
      above_left sorted lt, Layout.items_tree_node, below_left inner ltZ, above_left inner ltZ]
    simp
  | case3 color y b lt c z d eqZ =>
    rw [compare_lt_iff_lt] at lt
    rw [compare_eq_iff_eq] at eqZ
    obtain ⟨inner, -⟩ := sorted.node
    rw [Layout.items_node, Layout.items_node, Layout.items_tree_node, below_left sorted lt,
      above_left sorted lt, Layout.items_tree_node, below_middle inner eqZ,
      above_middle inner eqZ]
    simp
  | case4 color y b lt c z d gtZ ih =>
    rw [compare_lt_iff_lt] at lt
    rw [compare_gt_iff_gt] at gtZ
    obtain ⟨inner, -⟩ := sorted.node
    obtain ⟨-, innerD, -⟩ := inner.node
    rw [items_rebuildLeftRight, ih innerD, Layout.items_tree_node, below_left sorted lt,
      above_left sorted lt, Layout.items_tree_node, below_right inner gtZ,
      above_right inner gtZ]
    simp
  | case5 color y b lt a _ ih =>
    rw [compare_lt_iff_lt] at lt
    obtain ⟨inner, -⟩ := sorted.node
    rw [Layout.items_node, ih inner, Layout.items_tree_node, below_left sorted lt,
      above_left sorted lt]
    simp
  | case6 color a y b eq =>
    rw [compare_eq_iff_eq] at eq
    rw [Layout.items_node, Layout.items_tree_node, below_middle sorted eq,
      above_middle sorted eq]
  | case7 color a y gt c z d ltZ ih =>
    rw [compare_gt_iff_gt] at gt
    rw [compare_lt_iff_lt] at ltZ
    obtain ⟨-, inner, -⟩ := sorted.node
    obtain ⟨innerC, -⟩ := inner.node
    rw [items_rebuildRightLeft, ih innerC, Layout.items_tree_node, below_right sorted gt,
      above_right sorted gt, Layout.items_tree_node, below_left inner ltZ, above_left inner ltZ]
    simp
  | case8 color a y gt c z d eqZ =>
    rw [compare_gt_iff_gt] at gt
    rw [compare_eq_iff_eq] at eqZ
    obtain ⟨-, inner, -⟩ := sorted.node
    rw [Layout.items_node, Layout.items_node, Layout.items_tree_node, below_right sorted gt,
      above_right sorted gt, Layout.items_tree_node, below_middle inner eqZ,
      above_middle inner eqZ]
    simp
  | case9 color a y gt c z d gtZ ih =>
    rw [compare_gt_iff_gt] at gt gtZ
    obtain ⟨-, inner, -⟩ := sorted.node
    obtain ⟨-, innerD, -⟩ := inner.node
    rw [items_rebuildRightRight, ih innerD, Layout.items_tree_node, below_right sorted gt,
      above_right sorted gt, Layout.items_tree_node, below_right inner gtZ,
      above_right inner gtZ]
    simp
  | case10 color a y gt b _ ih =>
    rw [compare_gt_iff_gt] at gt
    obtain ⟨-, inner, -⟩ := sorted.node
    rw [Layout.items_node, ih inner, Layout.items_tree_node, below_right sorted gt,
      above_right sorted gt]
    simp

theorem sorted_insertItem (x : α) (sorted : Sorted key (L.items t)) :
    Sorted key (L.items (insertItem L key x t)) := by
  rw [items_insertItem x sorted]
  exact sorted_around sorted x

theorem insertItem_present {key : α → K} {x : α} {t : ColorTree α} {n : Nat}
    (h : Balanced t .black n) (sorted : Sorted key ((Layout.plain α).items t))
    (present : x ∈ (Layout.plain α).items t) : insertItem (Layout.plain α) key x t = t := by
  fun_induction insertItem (Layout.plain α) key x t generalizing n with
  | case1 => cases present
  | case2 color y b lt c z d ltZ ih =>
    rw [compare_lt_iff_lt] at lt ltZ
    obtain ⟨inner, -⟩ := sorted.node
    obtain ⟨innerC, -⟩ := inner.node
    have inC := mem_left inner (mem_left sorted present lt) ltZ
    cases h with
    | black _ ha hb =>
      obtain ⟨rfl, hc, hd⟩ := ha.of_red
      rw [ih hc innerC inC]
      cases hc <;> rfl
  | case3 color y b lt c z d eqZ =>
    rw [compare_lt_iff_lt] at lt
    rw [compare_eq_iff_eq] at eqZ
    obtain ⟨inner, -⟩ := sorted.node
    obtain rfl := mem_middle inner (mem_left sorted present lt) eqZ
    rfl
  | case4 color y b lt c z d gtZ ih =>
    rw [compare_lt_iff_lt] at lt
    rw [compare_gt_iff_gt] at gtZ
    obtain ⟨inner, -⟩ := sorted.node
    obtain ⟨-, innerD, -⟩ := inner.node
    have inD := mem_right inner (mem_left sorted present lt) gtZ
    cases h with
    | black _ ha hb =>
      obtain ⟨rfl, hc, hd⟩ := ha.of_red
      rw [ih hd innerD inD]
      cases hd <;> rfl
  | case5 color y b lt a notRed ih =>
    rw [compare_lt_iff_lt] at lt
    obtain ⟨inner, -⟩ := sorted.node
    cases h with
    | black _ ha hb =>
      rw [ih (black_of_not_red ha notRed) inner (mem_left sorted present lt)]
      rfl
  | case6 color a y b eq =>
    rw [compare_eq_iff_eq] at eq
    obtain rfl := mem_middle sorted present eq
    rfl
  | case7 color a y gt c z d ltZ ih =>
    rw [compare_gt_iff_gt] at gt
    rw [compare_lt_iff_lt] at ltZ
    obtain ⟨-, inner, -⟩ := sorted.node
    obtain ⟨innerC, -⟩ := inner.node
    have inC := mem_left inner (mem_right sorted present gt) ltZ
    cases h with
    | black _ ha hb =>
      obtain ⟨rfl, hc, hd⟩ := hb.of_red
      rw [ih hc innerC inC]
      cases hc <;> rfl
  | case8 color a y gt c z d eqZ =>
    rw [compare_gt_iff_gt] at gt
    rw [compare_eq_iff_eq] at eqZ
    obtain ⟨-, inner, -⟩ := sorted.node
    obtain rfl := mem_middle inner (mem_right sorted present gt) eqZ
    rfl
  | case9 color a y gt c z d gtZ ih =>
    rw [compare_gt_iff_gt] at gt gtZ
    obtain ⟨-, inner, -⟩ := sorted.node
    obtain ⟨-, innerD, -⟩ := inner.node
    have inD := mem_right inner (mem_right sorted present gt) gtZ
    cases h with
    | black _ ha hb =>
      obtain ⟨rfl, hc, hd⟩ := hb.of_red
      rw [ih hd innerD inD]
      cases hd <;> rfl
  | case10 color a y gt b notRed ih =>
    rw [compare_gt_iff_gt] at gt
    obtain ⟨-, inner, -⟩ := sorted.node
    cases h with
    | black _ ha hb =>
      rw [ih (black_of_not_red hb notRed) inner (mem_right sorted present gt)]
      rfl

theorem blacken_insertItem_present {key : α → K} {x : α} {t : ColorTree α} {c : Color} {n : Nat}
    (h : Balanced t c n) (sorted : Sorted key ((Layout.plain α).items t))
    (present : x ∈ (Layout.plain α).items t) :
    (insertItem (Layout.plain α) key x t).blacken = t.blacken := by
  cases h with
  | empty => cases present
  | black y ha hb => rw [insertItem_present (.black y ha hb) sorted present]
  | @red a b n y ha hb =>
    obtain ⟨sortedA, sortedB, -⟩ := sorted.node
    rw [insertItem.eq_def]
    dsimp only
    split
    · next lt =>
        rw [compare_lt_iff_lt] at lt
        have same := insertItem_present ha sortedA (mem_left sorted present lt)
        cases ha <;> exact congrArg (fun a => ColorTree.node .black a y b) same
    · next eq =>
        rw [compare_eq_iff_eq] at eq
        obtain rfl := mem_middle sorted present eq
        rfl
    · next gt =>
        rw [compare_gt_iff_gt] at gt
        have same := insertItem_present hb sortedB (mem_right sorted present gt)
        cases hb <;> exact congrArg (fun b => ColorTree.node .black a y b) same

theorem contains_iff (k : K) (sorted : Sorted key (L.items t)) :
    contains L key k t = true ↔ ∃ a ∈ L.items t, key a = k := by
  have known : contains L key k t = (find key k (L.items t)).isSome := by
    fun_induction contains L key k t with
    | case1 => rfl
    | case2 color a y b lt ih =>
      rw [compare_lt_iff_lt] at lt
      rw [ih sorted.node.1, Layout.items_tree_node, find_left sorted lt]
    | case3 color a y b eq =>
      rw [compare_eq_iff_eq] at eq
      rw [Layout.items_tree_node, find_middle sorted eq, Option.isSome_some]
    | case4 color a y b gt ih =>
      rw [compare_gt_iff_gt] at gt
      rw [ih sorted.node.2.1, Layout.items_tree_node, find_right sorted gt]
  rw [known, Option.isSome_iff_exists]
  simp only [find_eq_some sorted]

end Ordered

end Mythryl.RedBlack
