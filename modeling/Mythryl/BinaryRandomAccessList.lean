import Mythryl.Exceptions
import Mathlib.Data.List.Forall2
import Mathlib.Data.Nat.Log
import Mathlib.Tactic.Common
import Mathlib.Tactic.Ring

/-!
# Random access lists

`binary_random_access_list`: a list as a sequence of complete binary trees, each with the number of
its elements.
-/

namespace Mythryl.BinaryRandomAccessList

inductive Raised
  | subscript | empty | overflow
  deriving DecidableEq, Repr

def minimumInt : Int := -2 ^ 30
def maximumInt : Int := 2 ^ 30 - 1

def Tagged (n : Int) : Prop := minimumInt ≤ n ∧ n ≤ maximumInt

instance (n : Int) : Decidable (Tagged n) := inferInstanceAs (Decidable (_ ∧ _))

def checked (n : Int) : Except Raised Int :=
  if Tagged n then .ok n else .error .overflow

def plus (a b : Int) : Except Raised Int := checked (a + b)
def minus (a b : Int) : Except Raised Int := checked (a - b)

inductive Tree (X : Type)
  | leaf (x : X)
  | node (l : Tree X) (x : X) (r : Tree X)
  deriving DecidableEq, Repr

abbrev RandomAccessList (X : Type) := List (Int × Tree X)

section Operations

variable {X Y : Type}

@[grind =] def treeGet : Tree X → Int → Int → Except Raised X
  | .leaf x, i, _ => if i = 0 then .ok x else .error .subscript
  | .node l x r, i, n =>
      if i = 0 then .ok x
      else
        let n' := n / 2
        if i ≤ n' then do
          let i ← minus i 1
          treeGet l i n'
        else do
          let i ← minus i 1
          let i ← minus i n'
          treeGet r i n'

@[grind =] def treeSet : Tree X → Int → X → Int → Except Raised (Tree X)
  | .leaf _, i, x, _ => if i = 0 then .ok (.leaf x) else .error .subscript
  | .node l y r, i, x, n =>
      if i = 0 then .ok (.node l x r)
      else
        let n' := n / 2
        if i ≤ n' then do
          let i ← minus i 1
          let l ← treeSet l i x n'
          return .node l y r
        else do
          let i ← minus i 1
          let i ← minus i n'
          let r ← treeSet r i x n'
          return .node l y r

def empty : RandomAccessList X := []

@[grind =] def lengthFrom : RandomAccessList X → Int → Except Raised Int
  | [], n => .ok n
  | (m, _) :: l, n => do
      let n ← plus m n
      lengthFrom l n

def length (rl : RandomAccessList X) : Except Raised Int := lengthFrom rl 0

def cons (x : X) : RandomAccessList X → Except Raised (RandomAccessList X)
  | (m, t) :: (n, u) :: l =>
      if m = n then do
        let size ← plus m n
        let size ← plus size 1
        return (size, .node t x u) :: l
      else
        return (1, .leaf x) :: (m, t) :: (n, u) :: l
  | rl => return (1, .leaf x) :: rl

def head : RandomAccessList X → Except Raised X
  | (_, .leaf x) :: _ => .ok x
  | (_, .node _ x _) :: _ => .ok x
  | [] => .error .empty

def tail : RandomAccessList X → Except Raised (RandomAccessList X)
  | (_, .leaf _) :: rl => .ok rl
  | (n, .node l _ r) :: rl =>
      let n' := n / 2
      .ok ((n', l) :: (n', r) :: rl)
  | [] => .error .empty

@[grind =] def get : RandomAccessList X → Int → Except Raised X
  | [], _ => .error .subscript
  | (n, t) :: rl, i =>
      if i < n then treeGet t i n
      else do
        let i ← minus i n
        get rl i

@[grind =] def set : RandomAccessList X → Int → X → Except Raised (RandomAccessList X)
  | [], _, _ => .error .subscript
  | (n, t) :: rl, i, x =>
      if i < n then do
        let t ← treeSet t i x n
        return (n, t) :: rl
      else do
        let i ← minus i n
        let rl ← set rl i x
        return (n, t) :: rl

def mapTree (f : X → Y) : Tree X → Tree Y
  | .leaf x => .leaf (f x)
  | .node l x r => .node (mapTree f l) (f x) (mapTree f r)

def map (f : X → Y) (rl : RandomAccessList X) : RandomAccessList Y :=
  rl.map fun (n, t) => (n, mapTree f t)

def foldTree (f : X → Y → Y) : Tree X → Y → Y
  | .leaf x, u => f x u
  | .node l x r, u => foldTree f r (foldTree f l (f x u))

def foldForward (f : X → Y → Y) (u : Y) (rl : RandomAccessList X) : Y :=
  rl.foldl (fun u (_, t) => foldTree f t u) u

def foldTreeBack (f : X → Y → Y) : Tree X → Y → Y
  | .leaf x, u => f x u
  | .node l x r, u => f x (foldTreeBack f l (foldTreeBack f r u))

def foldBackward (f : X → Y → Y) (u : Y) (rl : RandomAccessList X) : Y :=
  rl.foldr (fun (_, t) u => foldTreeBack f t u) u

def fromList (l : List X) : Except Raised (RandomAccessList X) :=
  l.foldr (fun x rl => rl >>= cons x) (.ok empty)

def toList (rl : RandomAccessList X) : List X := foldBackward List.cons [] rl

end Operations

inductive Built : {X : Type} → RandomAccessList X → Prop
  | empty {X : Type} : Built (empty : RandomAccessList X)
  | cons {X : Type} {rl rl' : RandomAccessList X} (x : X) (built : Built rl)
      (run : cons x rl = .ok rl') : Built rl'
  | tail {X : Type} {rl rl' : RandomAccessList X} (built : Built rl) (run : tail rl = .ok rl') :
      Built rl'
  | set {X : Type} {rl rl' : RandomAccessList X} {i : Int} (tagged : Tagged i) (x : X)
      (built : Built rl) (run : set rl i x = .ok rl') : Built rl'
  | map {X Y : Type} {rl : RandomAccessList X} (f : X → Y) (built : Built rl) : Built (map f rl)
  | fromList {X : Type} {rl : RandomAccessList X} (l : List X) (run : fromList l = .ok rl) :
      Built rl

def size (h : Nat) : Nat := 2 ^ (h + 1) - 1

def Tree.Complete {X : Type} : Nat → Tree X → Prop
  | 0, .leaf _ => True
  | h + 1, .node l _ r => l.Complete h ∧ r.Complete h
  | _, _ => False

def Ascending (heights : List Nat) : Prop :=
  heights.Pairwise (· ≤ ·) ∧ heights.tail.Pairwise (· < ·)

def Entry {X : Type} (e : Int × Tree X) (h : Nat) : Prop := e.1 = size h ∧ e.2.Complete h

def Skew {X : Type} (rl : RandomAccessList X) : Prop :=
  ∃ heights, List.Forall₂ Entry rl heights ∧ Ascending heights

def Tree.elements {X : Type} : Tree X → List X
  | .leaf x => [x]
  | .node l x r => x :: (l.elements ++ r.elements)

def elements {X : Type} (rl : RandomAccessList X) : List X := rl.flatMap fun e => e.2.elements

section Shape

variable {X Y : Type} {x : X} {t l r : Tree X} {rl rl' : RandomAccessList X} {h k : Nat}
  {heights : List Nat} {e : Int × Tree X}

@[simp] theorem elements_nil : elements ([] : RandomAccessList X) = [] := rfl

@[simp] theorem elements_cons : elements (e :: rl) = e.2.elements ++ elements rl :=
  List.flatMap_cons

theorem size_pos (h : Nat) : 0 < size h :=
  Nat.sub_pos_of_lt (Nat.one_lt_two_pow (Nat.succ_ne_zero h))

theorem size_succ (h : Nat) : size (h + 1) = 2 * size h + 1 := by
  have := size_pos h
  unfold size at *
  omega

theorem size_succ_half (h : Nat) : ((size (h + 1) : Nat) : Int) / 2 = size h := by
  rw [size_succ]
  omega

theorem size_strictMono : StrictMono size := by
  apply strictMono_nat_of_lt_succ
  intro h
  have := size_succ h
  omega

theorem Tree.Complete.length (complete : t.Complete h) : t.elements.length = size h := by
  induction t generalizing h with
  | leaf x =>
    cases h with
    | zero => rfl
    | succ h => exact complete.elim
  | node l x r ihl ihr =>
    cases h with
    | zero => exact complete.elim
    | succ h =>
      rw [Tree.elements, List.length_cons, List.length_append, ihl complete.1, ihr complete.2,
        size_succ]
      ring

theorem Ascending.tail (ascending : Ascending (h :: heights)) : Ascending heights := by
  refine ⟨(List.pairwise_cons.mp ascending.1).2, ?_⟩
  exact ascending.2.sublist (List.tail_sublist _)

theorem Ascending.push (ascending : heights.Pairwise (· < ·)) : Ascending (0 :: heights) := by
  refine ⟨List.pairwise_cons.mpr ⟨fun _ _ => Nat.zero_le _, ?_⟩, ascending⟩
  exact ascending.imp Nat.le_of_lt

theorem Ascending.carry (ascending : Ascending (h :: h :: heights)) :
    Ascending ((h + 1) :: heights) := by
  obtain ⟨first, rest⟩ := List.pairwise_cons.mp ascending.2
  exact ⟨List.pairwise_cons.mpr ⟨first, rest.imp Nat.le_of_lt⟩, rest⟩

theorem Ascending.borrow (ascending : Ascending ((h + 1) :: heights)) :
    Ascending (h :: h :: heights) := by
  obtain ⟨first, rest⟩ := List.pairwise_cons.mp ascending.1
  have above : ∀ k ∈ heights, h < k := first
  have strict : (h :: heights).Pairwise (· < ·) := List.pairwise_cons.mpr ⟨above, ascending.2⟩
  refine ⟨List.pairwise_cons.mpr ⟨?_, strict.imp Nat.le_of_lt⟩, strict⟩
  intro k mem
  cases mem with
  | head => exact Nat.le_refl _
  | tail _ mem => exact (above k mem).le

theorem Ascending.strict (ascending : Ascending (h :: k :: heights)) (other : h ≠ k) :
    (h :: k :: heights).Pairwise (· < ·) := by
  obtain ⟨first, -⟩ := List.pairwise_cons.mp ascending.1
  have less : h < k := lt_of_le_of_ne (first k List.mem_cons_self) other
  obtain ⟨second, -⟩ := List.pairwise_cons.mp ascending.2
  refine List.pairwise_cons.mpr ⟨?_, ascending.2⟩
  intro j mem
  cases mem with
  | head => exact less
  | tail _ mem => exact less.trans (second j mem)

end Shape

section Indices

variable {X : Type} {x y : X} {t l r : Tree X} {rl rl' : RandomAccessList X} {h : Nat}
  {heights : List Nat} {a b i : Int} {j : Nat}

theorem plus_ok (inside : Tagged (a + b)) : plus a b = .ok (a + b) := if_pos inside

theorem checked_eq_ok {n m : Int} : checked n = .ok m ↔ Tagged n ∧ m = n := by
  unfold checked
  split
  · simp [*, eq_comm]
  · simp [*]

theorem checked_ok {n : Int} (inside : Tagged n) : checked n = .ok n := if_pos inside

theorem tagged_of_le (least : 0 ≤ a) (le : a ≤ maximumInt) : Tagged a :=
  ⟨le_trans (by decide) least, le⟩

theorem Tagged.between (inside : Tagged b) (least : 0 ≤ a) (le : a ≤ b) : Tagged a :=
  tagged_of_le least (le.trans inside.2)

/-- How far an index is counted down in a tree before it is found to be negative. -/
def Tree.height : Tree X → Nat
  | .leaf _ => 0
  | .node l _ _ => l.height + 1

theorem Tree.Complete.height (complete : t.Complete h) : t.height = h := by
  induction t generalizing h with
  | leaf x =>
    cases h with
    | zero => rfl
    | succ h => exact complete.elim
  | node l x r ihl _ =>
    cases h with
    | zero => exact complete.elim
    | succ h => rw [Tree.height, ihl complete.1]

theorem treeGet_inside (complete : t.Complete h) (inside : Tagged j)
    (found : t.elements[j]? = some x) : treeGet t j (size h) = .ok x := by
  induction t generalizing h j with
  | leaf y =>
    cases j with
    | zero =>
      cases found
      rfl
    | succ j => cases found
  | node l y r ihl ihr =>
    cases h with
    | zero => exact complete.elim
    | succ h =>
      cases j with
      | zero =>
        cases found
        rfl
      | succ j =>
        have down : ((j + 1 : Nat) : Int) - 1 = j := by omega
        have before : Tagged (j : Int) := inside.between (by omega) (by omega)
        have some : (l.elements ++ r.elements)[j]? = some x := found
        have half := complete.1.length
        rw [treeGet, if_neg (by omega)]
        simp only [size_succ_half, minus, down, checked_ok before]
        by_cases left : j < size h
        · rw [if_pos (by omega)]
          rw [List.getElem?_append_left (by omega)] at some
          exact ihl complete.1 before some
        · rw [if_neg (by omega)]
          rw [List.getElem?_append_right (by omega), half] at some
          have rest : (j : Int) - size h = (j - size h : Nat) := by omega
          have later : Tagged ((j - size h : Nat) : Int) :=
            before.between (by omega) (by omega)
          simp only [rest, bind, Except.bind, checked_ok later]
          exact ihr complete.2 later some

theorem treeGet_negative (complete : t.Complete h) (tagged : Tagged i) (negative : i < 0) :
    treeGet t i (size h) = .error (if minimumInt ≤ i - h then .subscript else .overflow) := by
  induction t generalizing h i with
  | leaf y =>
    cases h with
    | zero =>
      rw [treeGet, if_neg negative.ne, Int.natCast_zero, sub_zero, if_pos tagged.1]
    | succ h => exact complete.elim
  | node l y r ihl _ =>
    cases h with
    | zero => exact complete.elim
    | succ h =>
      rw [treeGet, if_neg negative.ne]
      simp only [size_succ_half, minus]
      rw [if_pos (by omega)]
      by_cases inside : Tagged (i - 1)
      · rw [checked, if_pos inside]
        have deeper := ihl complete.1 inside (by omega)
        rw [sub_sub, add_comm (1 : Int)] at deeper
        exact deeper
      · have below : ¬minimumInt ≤ i - (h + 1 : Nat) := by
          intro least
          exact inside ⟨by omega, by have := tagged.2; omega⟩
        rw [checked, if_neg inside, if_neg below]
        rfl

theorem treeSet_inside (complete : t.Complete h) (inside : Tagged j)
    (bound : j < t.elements.length) :
    ∃ t', treeSet t j x (size h) = .ok t' ∧ t'.elements = t.elements.set j x ∧ t'.Complete h := by
  induction t generalizing h j with
  | leaf y =>
    cases j with
    | zero =>
      refine ⟨.leaf x, rfl, rfl, ?_⟩
      cases h with
      | zero => trivial
      | succ h => exact complete.elim
    | succ j => simp [Tree.elements] at bound
  | node l y r ihl ihr =>
    cases h with
    | zero => exact complete.elim
    | succ h =>
      cases j with
      | zero => exact ⟨.node l x r, rfl, rfl, complete⟩
      | succ j =>
        have down : ((j + 1 : Nat) : Int) - 1 = j := by omega
        have before : Tagged (j : Int) := inside.between (by omega) (by omega)
        have half := complete.1.length
        simp only [Tree.elements, List.length_cons, List.length_append] at bound
        rw [treeSet, if_neg (by omega)]
        simp only [size_succ_half, minus, down, checked_ok before]
        by_cases left : j < size h
        · obtain ⟨l', run, equal, complete'⟩ := ihl complete.1 before (by omega)
          rw [if_pos (by omega)]
          simp only [bind, Except.bind, run]
          refine ⟨.node l' y r, rfl, ?_, complete', complete.2⟩
          rw [Tree.elements, Tree.elements, equal, List.set_cons_succ,
            List.set_append_left _ _ (by omega)]
        · have rest : (j : Int) - size h = (j - size h : Nat) := by omega
          have later : Tagged ((j - size h : Nat) : Int) :=
            before.between (by omega) (by omega)
          obtain ⟨r', run, equal, complete'⟩ := ihr complete.2 later (by omega)
          rw [if_neg (by omega)]
          simp only [rest, bind, Except.bind, checked_ok later, run]
          refine ⟨.node l y r', rfl, ?_, complete.1, complete'⟩
          rw [Tree.elements, Tree.elements, equal, List.set_cons_succ,
            List.set_append_right _ _ (by omega), half]

variable {e : Raised}

theorem bind_error {α β γ : Type} {m : Except Raised α} {f : α → Except Raised β}
    {g : α → Except Raised γ} (failed : m >>= f = .error e)
    (both : ∀ v, f v = .error e → g v = .error e) : m >>= g = .error e := by
  cases m with
  | error e' =>
    cases failed
    rfl
  | ok v => exact both v failed

theorem treeSet_error {n : Int} (failed : treeGet t i n = .error e) :
    treeSet t i x n = .error e := by
  fun_induction treeGet t i n with
  | case1 => cases failed
  | case2 y i n other =>
    cases failed
    exact if_neg other
  | case3 => cases failed
  | case4 l y r i n other n' left ih =>
    rw [treeSet, if_neg other]
    simp only
    rw [if_pos left]
    apply bind_error failed
    intro i' failed
    rw [ih i' failed]
    rfl
  | case5 l y r i n other n' right ih =>
    rw [treeSet, if_neg other]
    simp only
    rw [if_neg right]
    apply bind_error failed
    intro i' failed
    apply bind_error failed
    intro i'' failed
    rw [ih i'' failed]
    rfl

theorem Entry.length {e : Int × Tree X} (entry : Entry e h) : e.1 = e.2.elements.length := by
  rw [entry.1, entry.2.length]

theorem get_inside (entries : List.Forall₂ Entry rl heights) (inside : Tagged j)
    (found : (elements rl)[j]? = some x) : get rl j = .ok x := by
  induction entries generalizing j with
  | nil => cases found
  | @cons e h rl heights entry _ ih =>
    obtain ⟨n, t⟩ := e
    have length := entry.length
    obtain ⟨rfl, complete⟩ := entry
    rw [elements_cons] at found
    simp only at found length
    by_cases first : j < size h
    · rw [get, if_pos (by omega)]
      rw [List.getElem?_append_left (by omega)] at found
      exact treeGet_inside complete inside found
    · rw [List.getElem?_append_right (by omega)] at found
      have rest : (j : Int) - size h = (j - t.elements.length : Nat) := by omega
      have later : Tagged ((j - t.elements.length : Nat) : Int) :=
        inside.between (by omega) (by omega)
      rw [get, if_neg (by omega), minus, rest, checked_ok later]
      exact ih later found

theorem get_behind (entries : List.Forall₂ Entry rl heights) (inside : Tagged j)
    (behind : (elements rl).length ≤ j) : get rl j = .error .subscript := by
  induction entries generalizing j with
  | nil => rfl
  | @cons e h rl heights entry _ ih =>
    obtain ⟨n, t⟩ := e
    have length := entry.length
    obtain ⟨rfl, complete⟩ := entry
    rw [elements_cons, List.length_append] at behind
    simp only at behind length
    have rest : (j : Int) - size h = (j - t.elements.length : Nat) := by omega
    have later : Tagged ((j - t.elements.length : Nat) : Int) :=
      inside.between (by omega) (by omega)
    rw [get, if_neg (by omega), minus, rest, checked_ok later]
    exact ih later (by omega)

/-- The height of the first tree, which is where a negative index is looked for. -/
def height (rl : RandomAccessList X) : Nat := (rl.head?.map fun e => e.2.height).getD 0

theorem get_negative (entries : List.Forall₂ Entry rl heights) (tagged : Tagged i)
    (negative : i < 0) :
    get rl i = .error (if minimumInt ≤ i - height rl then .subscript else .overflow) := by
  cases entries with
  | nil => simp [get, height, tagged.1]
  | @cons e h rl heights entry _ =>
    obtain ⟨n, t⟩ := e
    obtain ⟨rfl, complete⟩ := entry
    have same : height ((↑(size h), t) :: rl) = h := complete.height
    rw [get, if_pos (by omega), treeGet_negative complete tagged negative, same]

theorem set_inside (entries : List.Forall₂ Entry rl heights) (inside : Tagged j)
    (bound : j < (elements rl).length) :
    ∃ rl', set rl j x = .ok rl' ∧ elements rl' = (elements rl).set j x ∧
      List.Forall₂ Entry rl' heights := by
  induction entries generalizing j with
  | nil => simp at bound
  | @cons e h rl heights entry entries ih =>
    obtain ⟨n, t⟩ := e
    have length := entry.length
    obtain ⟨rfl, complete⟩ := entry
    rw [elements_cons, List.length_append] at bound
    simp only at bound length
    by_cases first : j < size h
    · obtain ⟨t', run, equal, complete'⟩ := treeSet_inside (x := x) complete inside
        (show j < t.elements.length by omega)
      rw [set, if_pos (by omega), run]
      refine ⟨_, rfl, ?_, .cons ⟨rfl, complete'⟩ entries⟩
      have within : j < t.elements.length := by omega
      rw [elements_cons, elements_cons, equal, List.set_append_left _ _ within]
    · have rest : (j : Int) - size h = (j - t.elements.length : Nat) := by omega
      have later : Tagged ((j - t.elements.length : Nat) : Int) :=
        inside.between (by omega) (by omega)
      obtain ⟨rl', run, equal, entries'⟩ := ih later (by omega)
      rw [set, if_neg (by omega), minus, rest, checked_ok later]
      simp only [bind, Except.bind, run]
      refine ⟨_, rfl, ?_, .cons ⟨rfl, complete⟩ entries'⟩
      have beyond : t.elements.length ≤ j := by omega
      rw [elements_cons, elements_cons, equal, List.set_append_right _ _ beyond]

theorem set_error (failed : get rl i = .error e) : set rl i x = .error e := by
  fun_induction get rl i with
  | case1 =>
    cases failed
    rfl
  | case2 n t rl i first =>
    rw [set, if_pos first, treeSet_error failed]
    rfl
  | case3 n t rl i later ih =>
    rw [set, if_neg later]
    apply bind_error failed
    intro i' failed
    rw [ih i' failed]
    rfl

end Indices

section Sequence

variable {X Y : Type} {x : X} {rl rl' : RandomAccessList X} {heights : List Nat}

theorem lengthFrom_eq (entries : List.Forall₂ Entry rl heights) {n : Nat} (tagged : Tagged n) :
    lengthFrom rl n =
      if n + (elements rl).length ≤ maximumInt then .ok ((n + (elements rl).length : Nat) : Int)
      else .error .overflow := by
  induction entries generalizing n with
  | nil => simp [lengthFrom, tagged.2]
  | @cons e h rl heights entry _ ih =>
    obtain ⟨m, t⟩ := e
    have length := entry.length
    simp only at length
    have sum : m + (n : Int) = (n + t.elements.length : Nat) := by omega
    rw [lengthFrom, plus, sum, checked, elements_cons, List.length_append]
    by_cases inside : Tagged ((n + t.elements.length : Nat) : Int)
    · rw [if_pos inside]
      simp only [bind, Except.bind]
      rw [ih inside]
      simp only [Nat.add_assoc, Nat.cast_add, Int.add_assoc]
    · have beyond : ¬(n : Int) + ((t.elements.length + (elements rl).length : Nat) : Int) ≤
          maximumInt := by
        intro le
        exact inside (tagged_of_le (by omega) (by omega))
      rw [if_neg inside, if_neg beyond]
      rfl

theorem length_eq (skew : Skew rl) : length rl =
      if (elements rl).length ≤ maximumInt then .ok ((elements rl).length : Int)
      else .error .overflow := by
  obtain ⟨heights, entries, -⟩ := skew
  have equal := lengthFrom_eq entries (n := 0) (by decide)
  simpa [length] using equal

theorem head_eq :
    head rl = match elements rl with | [] => .error .empty | x :: _ => .ok x := by
  match rl with
  | [] => rfl
  | (_, .leaf _) :: _ => rfl
  | (_, .node _ _ _) :: _ => rfl

theorem skew_tail (skew : Skew rl) (run : tail rl = .ok rl') : Skew rl' := by
  obtain ⟨heights, entries, ascending⟩ := skew
  cases entries with
  | nil => cases run
  | @cons e h rl heights entry entries =>
    match e, h, entry with
    | (n, .leaf x), h, _ =>
      cases run
      exact ⟨heights, entries, ascending.tail⟩
    | (n, .node l x r), h + 1, entry =>
      cases run
      have whole : n = size (h + 1) := entry.1
      have half : n / 2 = size h := by rw [whole, size_succ_half]
      exact ⟨h :: h :: heights,
        .cons ⟨half, entry.2.1⟩ (.cons ⟨half, entry.2.2⟩ entries), ascending.borrow⟩

theorem cons_cases (run : cons x rl = .ok rl') :
    (∃ m t u l, rl = (m, t) :: (m, u) :: l ∧ rl' = (m + m + 1, .node t x u) :: l) ∨
      (∀ m t n u l, rl = (m, t) :: (n, u) :: l → m ≠ n) ∧ rl' = (1, .leaf x) :: rl := by
  unfold cons at run
  split at run
  · rename_i m t n u l
    split at run
    · rename_i equal
      subst equal
      left
      obtain ⟨a, sum, run⟩ := bind_eq_ok.mp run
      obtain ⟨b, sum', run⟩ := bind_eq_ok.mp run
      rw [plus, checked_eq_ok] at sum sum'
      obtain ⟨⟨-, rfl⟩, ⟨-, rfl⟩⟩ := And.intro sum sum'
      cases run
      exact ⟨m, t, u, l, rfl, rfl⟩
    · rename_i other
      cases run
      right
      refine ⟨?_, rfl⟩
      rintro m' t' n' u' l' ⟨⟩
      exact other
  · rename_i single
    cases run
    right
    refine ⟨?_, rfl⟩
    intro m t n u l equal
    exact absurd equal (single m t n u l)

theorem cons_ok (run : cons x rl = .ok rl') : elements rl' = x :: elements rl := by
  rcases cons_cases run with ⟨m, t, u, l, rfl, rfl⟩ | ⟨-, rfl⟩
  · simp [Tree.elements]
  · rfl

theorem skew_cons (skew : Skew rl) (run : cons x rl = .ok rl') : Skew rl' := by
  obtain ⟨heights, entries, ascending⟩ := skew
  have leaf : Entry ((1, .leaf x) : Int × Tree X) 0 := ⟨rfl, trivial⟩
  rcases cons_cases run with ⟨m, t, u, l, rfl, rfl⟩ | ⟨other, rfl⟩
  · match heights, entries with
    | h :: k :: heights, .cons first (.cons second entries) =>
      have same : h = k := by
        apply size_strictMono.injective
        have first := first.1
        have second := second.1
        omega
      subst same
      refine ⟨(h + 1) :: heights, .cons ⟨?_, first.2, second.2⟩ entries, ascending.carry⟩
      have first := first.1
      simp only at first
      rw [size_succ, first]
      push_cast
      ring
  · refine ⟨0 :: heights, .cons leaf entries, Ascending.push ?_⟩
    match heights, rl, entries with
    | [], _, _ => exact List.Pairwise.nil
    | [h], _, _ => exact List.pairwise_singleton _ _
    | h :: k :: heights, (m, t) :: (n, u) :: rl, .cons first (.cons second _) =>
      apply ascending.strict
      rintro rfl
      exact other m t n u rl rfl (first.1.trans second.1.symm)

theorem cons_runs (skew : Skew rl) (small : (elements rl).length ≤ maximumInt) :
    ∃ rl', cons x rl = .ok rl' := by
  obtain ⟨heights, entries, -⟩ := skew
  unfold cons
  split
  · rename_i m t n u l
    split
    · rename_i equal
      subst equal
      match heights, entries with
      | h :: k :: heights, .cons first (.cons second entries) =>
        have length1 := first.length
        have length2 := second.length
        have whole : m = size h := first.1
        simp only [elements_cons, List.length_append] at length1 length2 small
        have power := size_pos h
        unfold maximumInt at small
        have fits : m + m + 1 ≤ maximumInt := by
          unfold size at whole power
          unfold maximumInt
          omega
        have sum : Tagged (m + m) := tagged_of_le (by omega) (by omega)
        have sum' : Tagged (m + m + 1) := tagged_of_le (by omega) fits
        simp only [plus_ok sum, bind, Except.bind, plus_ok sum']
        exact ⟨_, rfl⟩
    · exact ⟨_, rfl⟩
  · exact ⟨_, rfl⟩

variable {i : Int}

theorem skew_set (skew : Skew rl) (tagged : Tagged i) (run : set rl i x = .ok rl') : Skew rl' := by
  obtain ⟨heights, entries, ascending⟩ := skew
  cases got : get rl i with
  | error e =>
    rw [set_error got] at run
    cases run
  | ok y =>
    rcases lt_or_ge i 0 with negative | least
    · rw [get_negative entries tagged negative] at got
      cases got
    · lift i to Nat using least with j
      rcases Nat.lt_or_ge j (elements rl).length with bound | behind
      · obtain ⟨rl'', run', -, entries'⟩ := set_inside (x := x) entries tagged bound
        rw [run'] at run
        cases run
        exact ⟨heights, entries', ascending⟩
      · rw [get_behind entries tagged behind] at got
        cases got

theorem elements_mapTree (f : X → Y) (t : Tree X) : (mapTree f t).elements = t.elements.map f := by
  induction t with
  | leaf x => rfl
  | node l x r ihl ihr => simp [mapTree, Tree.elements, ihl, ihr]

theorem complete_mapTree (f : X → Y) {t : Tree X} {h : Nat} (complete : t.Complete h) :
    (mapTree f t).Complete h := by
  induction t generalizing h with
  | leaf x =>
    cases h with
    | zero => trivial
    | succ h => exact complete.elim
  | node l x r ihl ihr =>
    cases h with
    | zero => exact complete.elim
    | succ h => exact ⟨ihl complete.1, ihr complete.2⟩

theorem elements_map (f : X → Y) (rl : RandomAccessList X) :
    elements (map f rl) = (elements rl).map f := by
  simp [map, elements, List.flatMap_map, List.map_flatMap, elements_mapTree]

theorem skew_map (f : X → Y) (skew : Skew rl) : Skew (map f rl) := by
  obtain ⟨heights, entries, ascending⟩ := skew
  refine ⟨heights, ?_, ascending⟩
  unfold map
  rw [List.forall₂_map_left_iff]
  exact entries.imp fun e h entry => ⟨entry.1, complete_mapTree f entry.2⟩

theorem foldTree_eq (f : X → Y → Y) (t : Tree X) (u : Y) :
    foldTree f t u = t.elements.foldl (fun u x => f x u) u := by
  induction t generalizing u with
  | leaf x => rfl
  | node l x r ihl ihr => simp [foldTree, Tree.elements, ihl, ihr]

theorem foldForward_eq (f : X → Y → Y) (u : Y) (rl : RandomAccessList X) :
    foldForward f u rl = (elements rl).foldl (fun u x => f x u) u := by
  simp [foldForward, elements, List.foldl_flatMap, foldTree_eq]

theorem foldTreeBack_eq (f : X → Y → Y) (t : Tree X) (u : Y) :
    foldTreeBack f t u = t.elements.foldr f u := by
  induction t generalizing u with
  | leaf x => rfl
  | node l x r ihl ihr => simp [foldTreeBack, Tree.elements, ihl, ihr]

theorem foldBackward_eq (f : X → Y → Y) (u : Y) (rl : RandomAccessList X) :
    foldBackward f u rl = (elements rl).foldr f u := by
  simp [foldBackward, elements, List.foldr_flatMap, foldTreeBack_eq]

theorem toList_eq (rl : RandomAccessList X) : toList rl = elements rl := by
  simp [toList, foldBackward_eq]

theorem fromList_ok {l : List X} (run : fromList l = .ok rl) : elements rl = l ∧ Skew rl := by
  induction l generalizing rl with
  | nil =>
    cases run
    exact ⟨rfl, [], .nil, List.Pairwise.nil, List.Pairwise.nil⟩
  | cons x l ih =>
    obtain ⟨rl', rest, run⟩ := bind_eq_ok.mp run
    obtain ⟨equal, skew⟩ := ih rest
    exact ⟨(cons_ok run).trans (by rw [equal]), skew_cons skew run⟩

theorem fromList_runs {l : List X} (small : l.length ≤ maximumInt) :
    ∃ rl, fromList l = .ok rl ∧ elements rl = l := by
  induction l with
  | nil => exact ⟨[], rfl, rfl⟩
  | cons x l ih =>
    have fits : (l.length : Int) ≤ maximumInt := by
      rw [List.length_cons] at small
      omega
    obtain ⟨rl, run, equal⟩ := ih fits
    obtain ⟨rl', run'⟩ := cons_runs (x := x) (fromList_ok run).2 (by rw [equal]; exact fits)
    have whole : fromList (x :: l) = .ok rl' := by
      change (fromList l >>= cons x) = .ok rl'
      rw [run]
      exact run'
    exact ⟨rl', whole, (fromList_ok whole).1⟩

theorem two_pow_le {h : Nat} (entries : List.Forall₂ Entry rl (h :: heights))
    (ascending : (h :: heights).Pairwise (· < ·)) :
    2 ^ (h + 1 + heights.length) ≤ (elements rl).length + 1 := by
  induction heights generalizing h rl with
  | nil =>
    cases entries with
    | cons entry entries =>
      rw [elements_cons, List.length_append, entry.2.length]
      unfold size at *
      simp only [List.length_nil, Nat.add_zero]
      omega
  | cons k heights ih =>
    cases entries with
    | cons entry entries =>
      obtain ⟨first, rest⟩ := List.pairwise_cons.mp ascending
      have less : h < k := first k List.mem_cons_self
      rw [elements_cons, List.length_append, List.length_cons]
      calc 2 ^ (h + 1 + (heights.length + 1)) ≤ 2 ^ (k + 1 + heights.length) :=
            Nat.pow_le_pow_right (by decide) (by omega)
        _ ≤ (elements _).length + 1 := ih entries rest
        _ ≤ _ := by omega

theorem Skew.logarithmic (skew : Skew rl) :
    rl.length ≤ Nat.log 2 ((elements rl).length + 1) + 1 := by
  obtain ⟨heights, entries, ascending⟩ := skew
  match heights, rl, entries with
  | [], [], _ => exact Nat.zero_le _
  | [h], [e], _ => exact Nat.le_add_left 1 _
  | h :: k :: heights, e :: e' :: rl, .cons entry entries =>
    have same := entries.length_eq
    have large := two_pow_le entries ascending.2
    simp only [List.length_cons] at same ⊢
    apply Nat.succ_le_succ
    apply Nat.le_log_of_pow_le (by decide)
    rw [elements_cons, List.length_append]
    calc 2 ^ (rl.length + 1) ≤ 2 ^ (k + 1 + heights.length) :=
          Nat.pow_le_pow_right (by decide) (by omega)
      _ ≤ (elements (e' :: rl)).length + 1 := large
      _ ≤ _ := by omega

theorem Built.skew (built : Built rl) : Skew rl := by
  induction built with
  | empty => exact ⟨[], .nil, List.Pairwise.nil, List.Pairwise.nil⟩
  | cons x _ run ih => exact skew_cons ih run
  | tail _ run ih => exact skew_tail ih run
  | set tagged x _ run ih => exact skew_set ih tagged run
  | map f _ ih => exact skew_map f ih
  | fromList l run => exact (fromList_ok run).2

def nth (l : List X) (i : Int) : Except Raised X :=
  if i < 0 then .error .subscript
  else match l[i.toNat]? with
    | some x => .ok x
    | none => .error .subscript

structure ListLike (rl : RandomAccessList X) (i : Int) : Prop where
  head : head rl = match elements rl with | [] => .error .empty | x :: _ => .ok x
  tail : match elements rl with
    | [] => tail rl = .error .empty
    | _ :: xs => ∃ rl', tail rl = .ok rl' ∧ elements rl' = xs
  cons : ∀ x, ∃ rl', cons x rl = .ok rl' ∧ elements rl' = x :: elements rl
  length : length rl = .ok ((elements rl).length : Int)
  get : get rl i = nth (elements rl) i
  set : ∀ x, if 0 ≤ i ∧ i < (elements rl).length then
      ∃ rl', set rl i x = .ok rl' ∧ elements rl' = (elements rl).set i.toNat x
    else set rl i x = .error .subscript
  map : ∀ (Y : Type) (f : X → Y), elements (map f rl) = (elements rl).map f
  foldForward : ∀ (Y : Type) (f : X → Y → Y) (u : Y),
    foldForward f u rl = (elements rl).foldl (fun u x => f x u) u
  foldBackward : ∀ (Y : Type) (f : X → Y → Y) (u : Y),
    foldBackward f u rl = (elements rl).foldr f u
  toList : toList rl = elements rl
  fromList : ∃ rl', fromList (elements rl) = .ok rl' ∧ elements rl' = elements rl

theorem tail_eq (rl : RandomAccessList X) :
    match elements rl with
    | [] => tail rl = .error .empty
    | _ :: xs => ∃ rl', tail rl = .ok rl' ∧ elements rl' = xs := by
  match rl with
  | [] => rfl
  | (_, .leaf _) :: rl => exact ⟨rl, rfl, rfl⟩
  | (n, .node l _ r) :: rl =>
    exact ⟨(n / 2, l) :: (n / 2, r) :: rl, rfl, (List.append_assoc _ _ _).symm⟩

theorem nth_inside {j : Nat} (bound : j < (elements rl).length) :
    nth (elements rl) j = .ok ((elements rl).get ⟨j, bound⟩) := by
  rw [nth, if_neg (by omega)]
  simp [bound]

theorem nth_outside (outside : ¬(0 ≤ i ∧ i < (elements rl).length)) :
    nth (elements rl) i = .error .subscript := by
  unfold nth
  split
  · rfl
  · rename_i least
    rw [List.getElem?_eq_none (by omega)]

theorem get_eq (skew : Skew rl) (tagged : Tagged i) :
    get rl i = if minimumInt ≤ i - height rl ∨ 0 ≤ i then nth (elements rl) i
      else .error .overflow := by
  obtain ⟨heights, entries, -⟩ := skew
  rcases lt_or_ge i 0 with negative | least
  · rw [get_negative entries tagged negative, nth_outside (by omega)]
    split <;> simp_all
  · rw [if_pos (.inr least)]
    lift i to Nat using least with j
    rcases Nat.lt_or_ge j (elements rl).length with bound | behind
    · rw [nth_inside bound]
      exact get_inside entries tagged (List.getElem?_eq_getElem bound)
    · rw [nth_outside (by omega)]
      exact get_behind entries tagged behind

theorem Skew.height_le (skew : Skew rl) : height rl ≤ (elements rl).length := by
  obtain ⟨heights, entries, -⟩ := skew
  cases entries with
  | nil => exact Nat.zero_le _
  | @cons e h rl heights entry _ =>
    have same : height (e :: rl) = h := entry.2.height
    have below : h + 1 < 2 ^ (h + 1) := Nat.lt_two_pow_self
    rw [same, elements_cons, List.length_append, entry.2.length]
    unfold size
    omega

/-- The trees of a list have the right shape, and all operations are those on lists, unless it is
too long to be counted or the index too small to be counted down. -/
theorem built_listLike {i : Int} (built : Built rl) (tagged : Tagged i) :
    Skew rl ∧ rl.length ≤ Nat.log 2 ((elements rl).length + 1) + 1 ∧ (ListLike rl i ↔
        (elements rl).length ≤ maximumInt ∧ minimumInt ≤ i - height rl) := by
  have skew := built.skew
  refine ⟨skew, skew.logarithmic, ?_⟩
  constructor
  · intro like
    have counted := like.length
    rw [length_eq skew] at counted
    split at counted
    · rename_i small
      refine ⟨small, ?_⟩
      rcases lt_or_ge i 0 with negative | least
      · have got := like.get
        rw [get_eq skew tagged, nth_outside (by omega)] at got
        split at got
        · rename_i deep
          exact deep.resolve_right (by omega)
        · cases got
      · have := skew.height_le
        unfold maximumInt minimumInt at *
        omega
    · cases counted
  · rintro ⟨small, deep⟩
    have got := (get_eq skew tagged).trans (if_pos (.inl deep))
    refine ⟨head_eq, tail_eq rl, ?_, by rw [length_eq skew, if_pos small], got, ?_,
      fun Y f => elements_map f rl, fun Y f u => foldForward_eq f u rl,
      fun Y f u => foldBackward_eq f u rl, toList_eq rl, fromList_runs small⟩
    · intro x
      obtain ⟨rl', run⟩ := cons_runs (x := x) skew small
      exact ⟨rl', run, cons_ok run⟩
    · intro x
      split
      · rename_i within
        obtain ⟨heights, entries, -⟩ := skew
        lift i to Nat using within.1 with j
        obtain ⟨rl', run, equal, -⟩ := set_inside (x := x) entries tagged (by omega)
        exact ⟨rl', run, equal⟩
      · rename_i outside
        exact set_error (got.trans (nth_outside outside))

theorem built_listLike_three :
    ∃ rl : RandomAccessList Nat, Built rl ∧ elements rl = [1, 2, 3] ∧ ListLike rl (-1) := by
  have run : fromList [1, 2, 3] = .ok [(3, .node (.leaf 2) 1 (.leaf 3))] := rfl
  have built := Built.fromList [1, 2, 3] run
  refine ⟨_, built, rfl, ?_⟩
  exact (built_listLike built (i := -1) (by decide)).2.2.mpr (by decide)

theorem get_least_overflows : ¬∀ (rl : RandomAccessList Nat) (i : Int), Built rl → Tagged i →
    ListLike rl i := by
  intro right
  have run : fromList [1, 2, 3] = .ok [(3, .node (.leaf 2) 1 (.leaf 3))] := rfl
  have got := (right _ minimumInt (Built.fromList [1, 2, 3] run) (by decide)).get
  exact absurd got (by decide)

end Sequence

end Mythryl.BinaryRandomAccessList
