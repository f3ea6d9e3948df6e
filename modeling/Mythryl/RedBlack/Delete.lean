import Mythryl.Exceptions
import Mythryl.RedBlack.Insert

/-! # Deletion from a red-black tree -/

namespace Mythryl.RedBlack
open ColoredTree SortedKeys

inductive Raised
  | notFound | subscript | noMatch
  deriving DecidableEq, Repr

inductive DescentPath (α β : Type)
  | top
  | left (color : Color) (item : α) (right : ColorTree β) (path : DescentPath α β)
  | right (color : Color) (left : ColorTree β) (item : α) (path : DescentPath α β)

namespace DescentPath

variable {α β : Type} (L : Layout α β)

def weight : DescentPath α β → Nat
  | .top => 0
  | .left color _ sibling path => (if color = .black then 1 else 0) + sibling.size + path.weight
  | .right color sibling _ path => (if color = .black then 1 else 0) + sibling.size + path.weight

def inner : DescentPath α β → Nat
  | .left _ _ (.node _ nephew _ _) _ => nephew.size
  | .right _ (.node _ _ _ nephew) _ _ => nephew.size
  | _ => 0

def before : DescentPath α β → List α
  | .top => []
  | .left _ _ _ path => before path
  | .right _ sibling item path => before path ++ L.items sibling ++ [item]

def after : DescentPath α β → List α
  | .top => []
  | .left _ item sibling path => item :: L.items sibling ++ after path
  | .right _ _ _ path => after path

end DescentPath

variable {α β K : Type} (L : Layout α β)

def copyPath : DescentPath α β → ColorTree β → ColorTree β
  | .top, t => t
  | .left color x b path, a => copyPath path (L.node color a x b)
  | .right color a x path, b => copyPath path (L.node color a x b)

def copyPath' : DescentPath α β → ColorTree β → Bool × ColorTree β
  | .top, t => (true, t)
  | .left .black x1 (.node .red c x2 d) path, a =>
      copyPath' (.left .red x1 c (.left .black (L.content x2) d path)) a
  | .left color x1 (.node .black (.node .red c x2 d) x3 e) path, a =>
      copyPath' (.left color x1
        (L.node .black c (L.content x2) (L.node .red d (L.content x3) e)) path) a
  | .left color x1 (.node .black c x2 (.node .red d x3 e)) path, a =>
      (false, copyPath L path (L.node color (L.node .black a x1 c) (L.content x2)
        (L.node .black d (L.content x3) e)))
  | .left .red x1 (.node .black c x2 d) path, a =>
      (false, copyPath L path (L.node .black a x1 (L.node .red c (L.content x2) d)))
  | .left .black x1 (.node .black c x2 d) path, a =>
      copyPath' path (L.node .black a x1 (L.node .red c (L.content x2) d))
  | .right .black (.node .red c x2 d) x1 path, b =>
      copyPath' (.right .red d x1 (.right .black c (L.content x2) path)) b
  | .right color (.node .black (.node .red c x3 d) x2 e) x1 path, b =>
      (false, copyPath L path (L.node color (L.node .black c (L.content x3) d) (L.content x2)
        (L.node .black e x1 b)))
  | .right color (.node .black c x2 (.node .red d x3 e)) x1 path, b =>
      copyPath' (.right color
        (L.node .black (L.node .red c (L.content x2) d) (L.content x3) e) x1 path) b
  | .right .red (.node .black c x2 d) x1 path, b =>
      (false, copyPath L path (L.node .black (L.node .red c (L.content x2) d) x1 b))
  | .right .black (.node .black c x2 d) x1 path, b =>
      copyPath' path (L.node .black (L.node .red c (L.content x2) d) x1 b)
  | path, t => (false, copyPath L path t)
termination_by path => (path.weight, path.inner)
decreasing_by
  all_goals simp [DescentPath.weight, DescentPath.inner, Layout.node, ColorTree.size, Prod.lex_def]
  all_goals omega

attribute [elab_as_elim] copyPath'.induct_unfolding

/-- `min_keyval`, `min_key`, `min_val`. -/
def minItem : ColorTree β → Except Raised α
  | .node _ .empty item _ => .ok (L.content item)
  | .node _ left _ _ => minItem left
  | .empty => .error .noMatch

def join (copyPath' : DescentPath α β → ColorTree β → Bool × ColorTree β)
    (descendRight : α → DescentPath α β → Except Raised (ColorTree β)) (color : Color)
    (left right : ColorTree β) (path : DescentPath α β) : Except Raised (ColorTree β) :=
  match color, left, right with
  | .red, .empty, .empty => .ok (copyPath L path .empty)
  | .red, left, .empty => .ok (copyPath L path left)
  | .red, .empty, right => .ok (copyPath L path right)
  | .black, left, .empty => .ok (copyPath' path left).2
  | .black, .empty, right => .ok (copyPath' path right).2
  | color, left, right => do
      let replacement ← minItem L right
      descendRight replacement (.right color left replacement path)

/-- The call of `descend` that `join` makes on the right subtree is handed to it. -/
@[grind =] def descend [Ord K] (key : α → K) : K → ColorTree β → DescentPath α β → Except Raised (ColorTree β)
  | _, .empty, _ => .error .notFound
  | k, .node color left item right, path =>
      match compare k (key (L.content item)) with
      | .lt => descend key k left (.left color (L.content item) right path)
      | .gt => descend key k right (.right color left (L.content item) path)
      | .eq =>
          join L (copyPath' L) (fun replacement => descend key (key replacement) right)
            color left right path

variable {L}

theorem items_copyPath (path : DescentPath α β) (t : ColorTree β) :
    L.items (copyPath L path t) = path.before L ++ L.items t ++ path.after L := by
  fun_induction copyPath L path t <;> simp_all [DescentPath.before, DescentPath.after]

def DescentPath.Exact (L : Layout α β) : DescentPath α β → Prop
  | .top => True
  | .left _ _ sibling path => L.Exact sibling ∧ path.Exact L
  | .right _ sibling _ path => L.Exact sibling ∧ path.Exact L

variable {path : DescentPath α β} {t : ColorTree β} {k : Color} {n : Nat}

theorem exact_copyPath (beside : path.Exact L)
    (exact : L.Exact t) : L.Exact (copyPath L path t) := by
  fun_induction copyPath L path t with
  | case1 => exact exact
  | case2 color x b path a ih => exact ih beside.2 (.node color x exact beside.1)
  | case3 color a x path b ih => exact ih beside.2 (.node color x beside.1 exact)

def up (color : Color) (n : Nat) : Nat := if color = .black then n + 1 else n

@[simp] theorem up_red (n : Nat) : up .red n = n := rfl
@[simp] theorem up_black (n : Nat) : up .black n = n + 1 := rfl

theorem balanced_node {color k' : Color} {left right : ColorTree β} (item : β)
    (hl : Balanced left k n) (hr : Balanced right k' n) (okLeft : color = .red → k = .black)
    (okRight : color = .red → k' = .black) :
    Balanced (.node color left item right) color (up color n) := by
  cases color with
  | red =>
    obtain rfl := okLeft rfl
    obtain rfl := okRight rfl
    exact .red item hl hr
  | black => exact .black item hl hr

/-- A tree of black height `n` may end the path, below a node of the colour. -/
inductive DescentPath.Fits : DescentPath α β → Color → Nat → Prop
  | top (n : Nat) : Fits .top .black n
  | left {color k parent : Color} {sibling : ColorTree β} {path : DescentPath α β} {n : Nat} (item : α)
      (beside : Balanced sibling k n) (ok : color = .red → k = .black)
      (fits : path.Fits parent (up color n)) (okParent : parent = .red → color = .black) :
      Fits (.left color item sibling path) color n
  | right {color k parent : Color} {sibling : ColorTree β} {path : DescentPath α β} {n : Nat} (item : α)
      (beside : Balanced sibling k n) (ok : color = .red → k = .black)
      (fits : path.Fits parent (up color n)) (okParent : parent = .red → color = .black) :
      Fits (.right color sibling item path) color n

theorem balanced_copyPath {parent : Color}
    (fits : path.Fits parent n) (h : Balanced t k n) (ok : parent = .red → k = .black) :
    ∃ k' m, Balanced (copyPath L path t) k' m := by
  induction fits generalizing t k with
  | top n => exact ⟨k, n, h⟩
  | left item beside okBeside fits okParent ih =>
    exact ih (balanced_node _ h beside ok okBeside) okParent
  | right item beside okBeside fits okParent ih =>
    exact ih (balanced_node _ beside h okBeside ok) okParent

inductive DescentPath.Deficit : DescentPath α β → Nat → Prop
  | fits {path : DescentPath α β} {parent : Color} {n : Nat} (fits : path.Fits parent (n + 1)) :
      Deficit path n
  | rotatedLeft {color k parent : Color} {c d e : ColorTree β} {path : DescentPath α β} {n : Nat}
      (x1 : α) (x2 x3 : β) (hc : Balanced c .black n) (hd : Balanced d .black n)
      (he : Balanced e k n) (fits : path.Fits parent (up color (n + 1)))
      (okParent : parent = .red → color = .black) :
      Deficit (.left color x1 (.node .black c x2 (.node .red d x3 e)) path) n
  | rotatedRight {color k parent : Color} {c d e : ColorTree β} {path : DescentPath α β} {n : Nat}
      (x1 : α) (x2 x3 : β) (hc : Balanced c k n) (hd : Balanced d .black n)
      (he : Balanced e .black n) (fits : path.Fits parent (up color (n + 1)))
      (okParent : parent = .red → color = .black) :
      Deficit (.right color (.node .black (.node .red c x3 d) x2 e) x1 path) n

def DescentPath.Stuck : DescentPath α β → Prop
  | .top => False
  | .left color _ sibling _ | .right color sibling _ _ =>
      ∀ k l x r, sibling = .node k l x r → color = .red ∧ k = .red

theorem DescentPath.Deficit.not_stuck (short : path.Deficit n) : ¬path.Stuck := by
  intro stuck
  cases short with
  | fits fits =>
    cases fits with
    | top => exact stuck
    | left item beside ok => cases beside with
      | red =>
        obtain ⟨rfl, -⟩ := stuck _ _ _ _ rfl
        exact absurd (ok rfl) (by simp)
      | black => cases (stuck _ _ _ _ rfl).2
    | right item beside ok => cases beside with
      | red =>
        obtain ⟨rfl, -⟩ := stuck _ _ _ _ rfl
        exact absurd (ok rfl) (by simp)
      | black => cases (stuck _ _ _ _ rfl).2
  | rotatedLeft => cases (stuck _ _ _ _ rfl).2
  | rotatedRight => cases (stuck _ _ _ _ rfl).2

def NotRed (c : ColorTree β) : Prop := ∀ l x r, c = .node .red l x r → False

/-- The ways of `copy_path'` up a path. The packages try them in different orders. -/
inductive Climbs (L : Layout α β) : DescentPath α β → ColorTree β → ColorTree β → Prop
  | top (t : ColorTree β) : Climbs L .top t t
  | redLeft (up : Climbs L (.left .red x1 c (.left .black (L.content x2) d p)) a t') :
      Climbs L (.left .black x1 (.node .red c x2 d) p) a t'
  | redRight (up : Climbs L (.right .red d x1 (.right .black c (L.content x2) p)) b t') :
      Climbs L (.right .black (.node .red c x2 d) x1 p) b t'
  | nearLeft (up : Climbs L (.left color x1 (L.node .black c (L.content x2)
        (L.node .red d (L.content x3) e)) p) a t') :
      Climbs L (.left color x1 (.node .black (.node .red c x2 d) x3 e) p) a t'
  | nearRight (up : Climbs L (.right color (L.node .black (L.node .red c (L.content x2) d)
        (L.content x3) e) x1 p) b t') :
      Climbs L (.right color (.node .black c x2 (.node .red d x3 e)) x1 p) b t'
  | farLeft : Climbs L (.left color x1 (.node .black c x2 (.node .red d x3 e)) p) a
      (copyPath L p (L.node color (L.node .black a x1 c) (L.content x2)
        (L.node .black d (L.content x3) e)))
  | farRight : Climbs L (.right color (.node .black (.node .red c x3 d) x2 e) x1 p) b
      (copyPath L p (L.node color (L.node .black c (L.content x3) d) (L.content x2)
        (L.node .black e x1 b)))
  | restLeft (hc : NotRed c) (hd : NotRed d) : Climbs L (.left .red x1 (.node .black c x2 d) p) a
      (copyPath L p (L.node .black a x1 (L.node .red c (L.content x2) d)))
  | restRight (hc : NotRed c) (hd : NotRed d) :
      Climbs L (.right .red (.node .black c x2 d) x1 p) b
        (copyPath L p (L.node .black (L.node .red c (L.content x2) d) x1 b))
  | onLeft (hc : NotRed c) (hd : NotRed d)
      (up : Climbs L p (L.node .black a x1 (L.node .red c (L.content x2) d)) t') :
      Climbs L (.left .black x1 (.node .black c x2 d) p) a t'
  | onRight (hc : NotRed c) (hd : NotRed d)
      (up : Climbs L p (L.node .black (L.node .red c (L.content x2) d) x1 b) t') :
      Climbs L (.right .black (.node .black c x2 d) x1 p) b t'
  | stuck {p : DescentPath α β} (stuck : p.Stuck) (t : ColorTree β) : Climbs L p t (copyPath L p t)

theorem copyPath'_climbs (path : DescentPath α β) (t : ColorTree β) :
    Climbs L path t (copyPath' L path t).2 := by
  fun_induction copyPath' L path t with
  | case1 t => exact .top t
  | case2 _ _ _ _ _ _ ih => exact .redLeft ih
  | case3 _ _ _ _ _ _ _ _ _ ih => exact .nearLeft ih
  | case4 => exact .farLeft
  | case5 _ _ _ _ _ _ hc hd => exact .restLeft hc hd
  | case6 _ _ _ _ _ _ hc hd ih => exact .onLeft hc hd ih
  | case7 _ _ _ _ _ _ ih => exact .redRight ih
  | case8 => exact .farRight
  | case9 _ _ _ _ _ _ _ _ _ _ ih => exact .nearRight ih
  | case10 _ _ _ _ _ _ hc hd => exact .restRight hc hd
  | case11 _ _ _ _ _ _ hc hd ih => exact .onRight hc hd ih
  | case12 path t notTop red1 _ _ redBlack1 blackBlack1 red2 _ _ redBlack2 blackBlack2 =>
    refine .stuck ?_ t
    cases path with
    | top => exact notTop rfl
    | left color =>
      rintro k l x r rfl
      cases color with
      | red => cases k with
        | red => exact ⟨rfl, rfl⟩
        | black => exact (redBlack1 _ _ _ _ _ rfl).elim
      | black => cases k with
        | red => exact (red1 _ _ _ _ _ rfl).elim
        | black => exact (blackBlack1 _ _ _ _ _ rfl).elim
    | right color =>
      rintro k l x r rfl
      cases color with
      | red => cases k with
        | red => exact ⟨rfl, rfl⟩
        | black => exact (redBlack2 _ _ _ _ _ rfl).elim
      | black => cases k with
        | red => exact (red2 _ _ _ _ _ rfl).elim
        | black => exact (blackBlack2 _ _ _ _ _ rfl).elim

theorem Climbs.items {t' : ColorTree β} (climbs : Climbs L path t t') :
    L.items t' = path.before L ++ L.items t ++ path.after L := by
  induction climbs <;> simp_all [DescentPath.before, DescentPath.after, items_copyPath]

theorem Climbs.exact {t' : ColorTree β} (climbs : Climbs L path t t') (beside : path.Exact L)
    (exact : L.Exact t) : L.Exact t' := by
  induction climbs with
  | top t => exact exact
  | redLeft _ ih =>
    obtain ⟨hc, hd, -⟩ := beside.1.tree_node
    exact ih ⟨hc, hd, beside.2⟩ exact
  | redRight _ ih =>
    obtain ⟨hc, hd, -⟩ := beside.1.tree_node
    exact ih ⟨hd, hc, beside.2⟩ exact
  | nearLeft _ ih =>
    obtain ⟨nephew, he, -⟩ := beside.1.tree_node
    obtain ⟨hc, hd, -⟩ := nephew.tree_node
    exact ih ⟨.node .black _ hc (.node .red _ hd he), beside.2⟩ exact
  | nearRight _ ih =>
    obtain ⟨hc, nephew, -⟩ := beside.1.tree_node
    obtain ⟨hd, he, -⟩ := nephew.tree_node
    exact ih ⟨.node .black _ (.node .red _ hc hd) he, beside.2⟩ exact
  | farLeft =>
    obtain ⟨hc, nephew, -⟩ := beside.1.tree_node
    obtain ⟨hd, he, -⟩ := nephew.tree_node
    exact exact_copyPath beside.2 (.node _ _ (.node .black _ exact hc) (.node .black _ hd he))
  | farRight =>
    obtain ⟨nephew, he, -⟩ := beside.1.tree_node
    obtain ⟨hc, hd, -⟩ := nephew.tree_node
    exact exact_copyPath beside.2 (.node _ _ (.node .black _ hc hd) (.node .black _ he exact))
  | restLeft =>
    obtain ⟨hc, hd, -⟩ := beside.1.tree_node
    exact exact_copyPath beside.2 (.node .black _ exact (.node .red _ hc hd))
  | restRight =>
    obtain ⟨hc, hd, -⟩ := beside.1.tree_node
    exact exact_copyPath beside.2 (.node .black _ (.node .red _ hc hd) exact)
  | onLeft _ _ _ ih =>
    obtain ⟨hc, hd, -⟩ := beside.1.tree_node
    exact ih beside.2 (.node .black _ exact (.node .red _ hc hd))
  | onRight _ _ _ ih =>
    obtain ⟨hc, hd, -⟩ := beside.1.tree_node
    exact ih beside.2 (.node .black _ (.node .red _ hc hd) exact)
  | stuck => exact exact_copyPath beside exact

theorem Climbs.balanced {t' : ColorTree β} (climbs : Climbs L path t t')
    (short : path.Deficit n) (h : Balanced t k n) : ∃ k' m, Balanced t' k' m := by
  induction climbs generalizing n k with
  | top t => exact ⟨k, n, h⟩
  | redLeft _ ih =>
    cases short with
    | fits fits => cases fits with
      | left _ beside _ fits _ =>
        obtain ⟨-, hc, hd⟩ := beside.of_red
        apply ih (.fits (.left _ hc (fun _ => rfl) (.left _ hd ?_ fits ?_) ?_)) h <;> simp
  | redRight _ ih =>
    cases short with
    | fits fits => cases fits with
      | right _ beside _ fits _ =>
        obtain ⟨-, hc, hd⟩ := beside.of_red
        apply ih (.fits (.right _ hd (fun _ => rfl) (.right _ hc ?_ fits ?_) ?_)) h <;> simp
  | nearLeft _ ih =>
    cases short with
    | fits fits => cases fits with
      | left _ beside _ fits okParent => cases beside with
        | black _ nephew he =>
          obtain ⟨-, hc, hd⟩ := nephew.of_red
          exact ih (.rotatedLeft _ _ _ hc hd he fits okParent) h
    | rotatedLeft _ _ _ hc => cases hc
  | nearRight _ ih =>
    cases short with
    | fits fits => cases fits with
      | right _ beside _ fits okParent => cases beside with
        | black _ hc nephew =>
          obtain ⟨-, hd, he⟩ := nephew.of_red
          exact ih (.rotatedRight _ _ _ hc hd he fits okParent) h
    | rotatedRight _ _ _ _ _ he => cases he
  | farLeft =>
    cases short with
    | fits fits => cases fits with
      | left _ beside _ fits okParent => cases beside with
        | black _ hc nephew =>
          obtain ⟨-, hd, he⟩ := nephew.of_red
          exact balanced_copyPath fits (balanced_node _ (.black _ h hc) (.black _ hd he)
            (fun _ => rfl) (fun _ => rfl)) okParent
    | rotatedLeft _ _ _ hc hd he fits okParent =>
      exact balanced_copyPath fits (balanced_node _ (.black _ h hc) (.black _ hd he)
        (fun _ => rfl) (fun _ => rfl)) okParent
  | farRight =>
    cases short with
    | fits fits => cases fits with
      | right _ beside _ fits okParent => cases beside with
        | black _ nephew he =>
          obtain ⟨-, hc, hd⟩ := nephew.of_red
          exact balanced_copyPath fits (balanced_node _ (.black _ hc hd) (.black _ he h)
            (fun _ => rfl) (fun _ => rfl)) okParent
    | rotatedRight _ _ _ hc hd he fits okParent =>
      exact balanced_copyPath fits (balanced_node _ (.black _ hc hd) (.black _ he h)
        (fun _ => rfl) (fun _ => rfl)) okParent
  | restLeft notC notD =>
    cases short with
    | fits fits => cases fits with
      | left _ beside _ fits okParent => cases beside with
        | black _ hc hd =>
          exact balanced_copyPath fits (.black _ h
            (.red _ (black_of_not_red hc notC) (black_of_not_red hd notD))) (fun _ => rfl)
    | rotatedLeft => exact (notD _ _ _ rfl).elim
  | restRight notC notD =>
    cases short with
    | fits fits => cases fits with
      | right _ beside _ fits okParent => cases beside with
        | black _ hc hd =>
          exact balanced_copyPath fits (.black _
            (.red _ (black_of_not_red hc notC) (black_of_not_red hd notD)) h) (fun _ => rfl)
    | rotatedRight => exact (notC _ _ _ rfl).elim
  | onLeft notC notD _ ih =>
    cases short with
    | fits fits => cases fits with
      | left _ beside _ fits _ => cases beside with
        | black _ hc hd =>
          exact ih (.fits fits) (.black _ h
            (.red _ (black_of_not_red hc notC) (black_of_not_red hd notD)))
    | rotatedLeft => exact (notD _ _ _ rfl).elim
  | onRight notC notD _ ih =>
    cases short with
    | fits fits => cases fits with
      | right _ beside _ fits _ => cases beside with
        | black _ hc hd =>
          exact ih (.fits fits) (.black _
            (.red _ (black_of_not_red hc notC) (black_of_not_red hd notD)) h)
    | rotatedRight => exact (notC _ _ _ rfl).elim
  | stuck stuck => exact absurd stuck short.not_stuck

theorem minItem_spec (nonempty : t ≠ .empty) :
    ∃ a rest, minItem L t = .ok a ∧ L.items t = a :: rest := by
  fun_induction minItem L t with
  | case1 color item right => exact ⟨_, _, rfl, rfl⟩
  | case2 color left item right notEmpty ih =>
    obtain ⟨a, rest, found, items⟩ := ih notEmpty
    exact ⟨a, _, found, by rw [Layout.items_tree_node, items, List.cons_append]⟩
  | case3 => exact absurd rfl nonempty

section Join

variable {copyUp : DescentPath α β → ColorTree β → Bool × ColorTree β}
  {descendRight : α → DescentPath α β → Except Raised (ColorTree β)}
  {color : Color} {left right : ColorTree β} {path : DescentPath α β}

theorem items_join (climbs : ∀ path t, Climbs L path t (copyUp path t).2)
    (descends : ∀ a rest, L.items right = a :: rest →
      ∃ t, descendRight a (.right color left a path) = .ok t ∧
        L.items t = path.before L ++ L.items left ++ [a] ++ rest ++ path.after L) :
    ∃ t, join L copyUp descendRight color left right path = .ok t ∧
      L.items t = path.before L ++ (L.items left ++ L.items right) ++ path.after L := by
  unfold join
  split
  · exact ⟨_, rfl, by simp [items_copyPath]⟩
  · exact ⟨_, rfl, by simp [items_copyPath]⟩
  · exact ⟨_, rfl, by simp [items_copyPath]⟩
  · exact ⟨_, rfl, by simp [(climbs _ _).items]⟩
  · exact ⟨_, rfl, by simp [(climbs _ _).items]⟩
  · -- the rules before leave two subtrees that are not empty
    have nonempty : right ≠ .empty := by
      rintro rfl
      cases color <;> simp_all only [reduceCtorEq, forall_const, false_implies]
    obtain ⟨a, rest, least, items⟩ := minItem_spec (L := L) nonempty
    obtain ⟨t, result, found⟩ := descends a rest items
    exact ⟨t, by simp [least, result, bind, Except.bind], by simp [found, items]⟩

theorem exact_join (climbs : ∀ path t, Climbs L path t (copyUp path t).2)
    (hl : L.Exact left) (hr : L.Exact right) (beside : path.Exact L)
    (descends : ∀ a t, descendRight a (.right color left a path) = .ok t → L.Exact t)
    {t : ColorTree β} (result : join L copyUp descendRight color left right path = .ok t) :
    L.Exact t := by
  unfold join at result
  split at result
  · exact Except.ok.inj result ▸ exact_copyPath beside .empty
  · exact Except.ok.inj result ▸ exact_copyPath beside hl
  · exact Except.ok.inj result ▸ exact_copyPath beside hr
  · exact Except.ok.inj result ▸ (climbs _ _).exact beside hl
  · exact Except.ok.inj result ▸ (climbs _ _).exact beside hr
  · obtain ⟨a, -, descent⟩ := bind_eq_ok.mp result
    exact descends a t descent

theorem balanced_join (climbs : ∀ path t, Climbs L path t (copyUp path t).2)
    {k k' parent : Color} {n : Nat} (hl : Balanced left k n) (hr : Balanced right k' n)
    (okLeft : color = .red → k = .black) (okRight : color = .red → k' = .black)
    (fits : path.Fits parent (up color n)) (okParent : parent = .red → color = .black)
    (descends : ∀ a t, (DescentPath.right color left a path).Fits color n →
      descendRight a (.right color left a path) = .ok t → ∃ k' m, Balanced t k' m)
    {t : ColorTree β} (result : join L copyUp descendRight color left right path = .ok t) :
    ∃ k' m, Balanced t k' m := by
  unfold join at result
  split at result
  · cases hl
    exact Except.ok.inj result ▸ balanced_copyPath fits .empty (fun _ => rfl)
  · exact Except.ok.inj result ▸ balanced_copyPath fits hl (fun _ => okLeft rfl)
  · exact Except.ok.inj result ▸ balanced_copyPath fits hr (fun _ => okRight rfl)
  · exact Except.ok.inj result ▸ (climbs _ _).balanced (.fits fits) hl
  · exact Except.ok.inj result ▸ (climbs _ _).balanced (.fits fits) hr
  · obtain ⟨a, -, descent⟩ := bind_eq_ok.mp result
    exact descends a t (.right a hl okLeft fits okParent) descent

end Join

theorem balanced_tree_node {color : Color} {left right : ColorTree β} {item : β}
    (h : Balanced (.node color left item right) k n) :
    k = color ∧ ∃ m l r, n = up color m ∧ Balanced left l m ∧ Balanced right r m ∧
      (color = .red → l = .black) ∧ (color = .red → r = .black) := by
  cases h with
  | red _ hl hr => exact ⟨rfl, _, _, _, rfl, hl, hr, fun _ => rfl, fun _ => rfl⟩
  | black _ hl hr => exact ⟨rfl, _, _, _, rfl, hl, hr, by simp, by simp⟩

section Descend

variable [Ord K] {key : α → K}

theorem exact_descend {k : K} {t : ColorTree β} {path : DescentPath α β} (exact : L.Exact t)
    (beside : path.Exact L) {t' : ColorTree β} (result : descend L key k t path = .ok t') :
    L.Exact t' := by
  induction t generalizing k path t' with
  | empty => cases result
  | node color left item right left_ih right_ih =>
    obtain ⟨hl, hr, -⟩ := exact.tree_node
    have goLeft (a : α) : (DescentPath.left color a right path).Exact L := ⟨hr, beside⟩
    have goRight (a : α) : (DescentPath.right color left a path).Exact L := ⟨hl, beside⟩
    unfold descend at result
    split at result
    · exact left_ih hl (goLeft _) result
    · exact right_ih hr (goRight _) result
    · apply exact_join copyPath'_climbs hl hr beside _ result
      intro a t found
      exact right_ih hr (goRight a) found

theorem balanced_descend {k : K} {t : ColorTree β} {path : DescentPath α β} {c parent : Color}
    {n : Nat} (h : Balanced t c n) (fits : path.Fits parent n) (ok : parent = .red → c = .black)
    {t' : ColorTree β} (result : descend L key k t path = .ok t') : ∃ c' m, Balanced t' c' m := by
  induction t generalizing k path c parent n t' with
  | empty => cases result
  | node color left item right left_ih right_ih =>
    obtain ⟨rfl, m, l, r, rfl, hl, hr, okLeft, okRight⟩ := balanced_tree_node h
    unfold descend at result
    split at result
    · exact left_ih hl (.left _ hr okRight fits ok) okLeft result
    · exact right_ih hr (.right _ hl okLeft fits ok) okRight result
    · apply balanced_join copyPath'_climbs hl hr okLeft okRight fits ok _ result
      intro a t fits found
      exact right_ih hr fits okRight found

end Descend

section Ordered

variable [LinearOrder K] {key : α → K}

theorem descend_absent {k : K} {t : ColorTree β} (path : DescentPath α β)
    (sorted : Sorted key (L.items t)) (absent : ∀ a ∈ L.items t, key a ≠ k) :
    descend L key k t path = .error .notFound := by
  induction t generalizing path with
  | empty => rfl
  | node color left item right left_ih right_ih =>
    obtain ⟨sortedLeft, sortedRight, -⟩ := sorted.node
    unfold descend
    split
    · exact left_ih _ sortedLeft fun a ha => absent a (by simp [ha])
    · exact right_ih _ sortedRight fun a ha => absent a (by simp [ha])
    · next eq =>
        rw [compare_eq_iff_eq] at eq
        exact absurd eq.symm (absent _ (by simp))

theorem descend_present {k : K} {t : ColorTree β} (path : DescentPath α β)
    (sorted : Sorted key (L.items t)) (present : ∃ a ∈ L.items t, key a = k) :
    ∃ t', descend L key k t path = .ok t' ∧
      L.items t' = path.before L ++ (below key k (L.items t) ++ above key k (L.items t)) ++
        path.after L := by
  induction t generalizing k path with
  | empty => simp at present
  | node color left item right left_ih right_ih =>
    obtain ⟨sortedLeft, sortedRight, -⟩ := sorted.node
    obtain ⟨a, ha, rfl⟩ := present
    rw [Layout.items_tree_node] at ha
    unfold descend
    split
    · next lt =>
        rw [compare_lt_iff_lt] at lt
        have inLeft : a ∈ L.items left := mem_left sorted ha lt
        obtain ⟨t', result, items⟩ :=
          left_ih (.left color (L.content item) right path) sortedLeft ⟨a, inLeft, rfl⟩
        refine ⟨t', result, ?_⟩
        rw [items, Layout.items_tree_node, below_left sorted lt, above_left sorted lt]
        simp [DescentPath.before, DescentPath.after]
    · next gt =>
        rw [compare_gt_iff_gt] at gt
        have inRight : a ∈ L.items right := mem_right sorted ha gt
        obtain ⟨t', result, items⟩ :=
          right_ih (.right color left (L.content item) path) sortedRight ⟨a, inRight, rfl⟩
        refine ⟨t', result, ?_⟩
        rw [items, Layout.items_tree_node, below_right sorted gt, above_right sorted gt]
        simp [DescentPath.before, DescentPath.after]
    · next eq =>
        rw [compare_eq_iff_eq] at eq
        rw [Layout.items_tree_node, below_middle sorted eq, above_middle sorted eq]
        apply items_join copyPath'_climbs
        intro least rest items
        obtain ⟨t', result, found⟩ := right_ih (.right color left least path) sortedRight
          (k := key least) ⟨least, by simp [items], rfl⟩
        refine ⟨t', result, ?_⟩
        have sortedRest : Sorted key ([] ++ least :: rest) := by simpa [items] using sortedRight
        have none : below key (key least) (L.items right) = [] := by
          simpa [items] using below_middle sortedRest rfl
        have all : above key (key least) (L.items right) = rest := by
          simpa [items] using above_middle sortedRest rfl
        rw [found, none, all]
        simp [DescentPath.before, DescentPath.after]

end Ordered

end Mythryl.RedBlack
