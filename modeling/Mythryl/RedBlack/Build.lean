import Mythryl.RedBlack.Delete

/-! # Red-black trees from ascending sequences -/

namespace Mythryl.RedBlack
open ColoredTree SortedKeys

inductive Digit (α β : Type)
  | zero
  | one (item : α) (tree : ColorTree β) (rest : Digit α β)
  | two (item1 : α) (tree1 : ColorTree β) (item2 : α) (tree2 : ColorTree β) (rest : Digit α β)

variable {α β : Type} (L : Layout α β)

@[grind =] def incr (a : α) (t : ColorTree β) : Digit α β → Digit α β
  | .zero => .one a t .zero
  | .one a2 t2 rest => .two a t a2 t2 rest
  | .two a2 t2 a3 t3 rest => .one a t (incr a2 (L.node .black t3 a3 t2) rest)

def addItem (a : α) (digits : Digit α β) : Digit α β := incr L a .empty digits

@[grind =] def link : ColorTree β → Digit α β → ColorTree β
  | t, .zero => t
  | t, .one a tree rest => link (L.node .black tree a t) rest
  | t, .two a1 t1 a2 t2 rest => link (L.node .black (L.node .red t2 a2 t1) a1 t) rest

def linkAll (digits : Digit α β) : ColorTree β := link L .empty digits

namespace Digit

def items : Digit α β → List α
  | .zero => []
  | .one a t rest => items rest ++ (L.items t ++ [a])
  | .two a1 t1 a2 t2 rest => items rest ++ (L.items t2 ++ [a2]) ++ (L.items t1 ++ [a1])

inductive Ranked : Digit α β → Nat → Prop
  | zero (n : Nat) : Ranked .zero n
  | one {t : ColorTree β} {rest : Digit α β} {n : Nat} (a : α) (ht : Balanced t .black n)
      (hrest : Ranked rest (n + 1)) : Ranked (.one a t rest) n
  | two {t1 t2 : ColorTree β} {rest : Digit α β} {n : Nat} (a1 a2 : α) (h1 : Balanced t1 .black n)
      (h2 : Balanced t2 .black n) (hrest : Ranked rest (n + 1)) : Ranked (.two a1 t1 a2 t2 rest) n

def Exact : Digit α β → Prop
  | .zero => True
  | .one _ t rest => L.Exact t ∧ rest.Exact
  | .two _ t1 _ t2 rest => L.Exact t1 ∧ L.Exact t2 ∧ rest.Exact

end Digit

variable {L}

theorem items_incr (a : α) (t : ColorTree β) (digits : Digit α β) :
    (incr L a t digits).items L = digits.items L ++ (L.items t ++ [a]) := by
  fun_induction incr L a t digits with
  | case1 => rfl
  | case2 => simp [Digit.items]
  | case3 a t a2 t2 a3 t3 rest ih => simp [Digit.items, ih]

variable {digits : Digit α β} {t : ColorTree β} {rest stack : List (ColorTree β)}

theorem ranked_incr {a : α} {n : Nat}
    (ht : Balanced t .black n) (h : digits.Ranked n) : (incr L a t digits).Ranked n := by
  induction h generalizing a t with
  | zero n => exact .one a ht (.zero _)
  | one a2 h2 hrest => exact .two a a2 ht h2 hrest
  | two a2 a3 h2 h3 hrest ih => exact .one a ht (ih (.black _ h3 h2))

theorem exact_incr {a : α} (ht : L.Exact t) (h : digits.Exact L) : (incr L a t digits).Exact L := by
  fun_induction incr L a t digits with
  | case1 => exact ⟨ht, trivial⟩
  | case2 a t a2 t2 rest => exact ⟨ht, h.1, h.2⟩
  | case3 a t a2 t2 a3 t3 rest ih =>
    obtain ⟨h2, h3, hrest⟩ := h
    exact ⟨ht, ih (.node .black a3 h3 h2) hrest⟩

theorem items_link (t : ColorTree β) (digits : Digit α β) :
    L.items (link L t digits) = digits.items L ++ L.items t := by
  fun_induction link L t digits with
  | case1 t => rfl
  | case2 t a tree rest ih => simp [Digit.items, ih]
  | case3 t a1 t1 a2 t2 rest ih => simp [Digit.items, ih]

theorem balanced_link {n : Nat} (ht : Balanced t .black n)
    (h : digits.Ranked n) : ∃ m, Balanced (link L t digits) .black m := by
  induction h generalizing t with
  | zero n => exact ⟨n, ht⟩
  | one a h1 hrest ih => exact ih (.black _ h1 ht)
  | two a1 a2 h1 h2 hrest ih => exact ih (.black _ (.red _ h2 h1) ht)

theorem exact_link (ht : L.Exact t) (h : digits.Exact L) : L.Exact (link L t digits) := by
  fun_induction link L t digits with
  | case1 t => exact ht
  | case2 t a tree rest ih => exact ih (.node .black a h.1 ht) h.2
  | case3 t a1 t1 a2 t2 rest ih =>
    obtain ⟨h1, h2, hrest⟩ := h
    exact ih (.node .black a1 (.node .red a2 h2 h1) ht) hrest

variable (L) in
def addItems (items : List α) (digits : Digit α β) : Digit α β :=
  items.foldl (fun digits a => addItem L a digits) digits

@[simp] theorem addItems_nil (digits : Digit α β) : addItems L [] digits = digits := rfl

@[simp] theorem addItems_cons (a : α) (items : List α) (digits : Digit α β) :
    addItems L (a :: items) digits = addItems L items (addItem L a digits) := rfl

theorem addItems_append (items others : List α) (digits : Digit α β) :
    addItems L (items ++ others) digits = addItems L others (addItems L items digits) := by
  unfold addItems
  rw [List.foldl_append]

theorem items_addItems (items : List α) (digits : Digit α β) :
    (addItems L items digits).items L = digits.items L ++ items := by
  induction items generalizing digits with
  | nil => simp
  | cons a items ih =>
    rw [addItems_cons, ih, addItem, items_incr]
    simp

theorem ranked_addItems (items : List α) (h : digits.Ranked 0) :
    (addItems L items digits).Ranked 0 := by
  induction items generalizing digits with
  | nil => exact h
  | cons a items ih => exact ih (ranked_incr .empty h)

theorem exact_addItems (items : List α) (h : digits.Exact L) :
    (addItems L items digits).Exact L := by
  induction items generalizing digits with
  | nil => exact h
  | cons a items ih => exact ih (exact_incr .empty h)

theorem linkAll_addItems (items : List α) : L.items (linkAll L (addItems L items .zero)) = items ∧
      L.Exact (linkAll L (addItems L items .zero)) ∧
      ∃ n, Balanced (linkAll L (addItems L items .zero)) .black n := by
  refine ⟨?_, ?_, ?_⟩
  · rw [linkAll, items_link, items_addItems]
    simp [Digit.items]
  · exact exact_link .empty (exact_addItems items trivial)
  · exact balanced_link .empty (ranked_addItems items (.zero 0))

@[grind =] def left : ColorTree β → List (ColorTree β) → List (ColorTree β)
  | .empty, rest => rest
  | .node color a y b, rest => left a (.node color a y b :: rest)

@[grind =] def next : List (ColorTree β) → ColorTree β × List (ColorTree β)
  | .node color a y b :: rest => (.node color a y b, left b rest)
  | _ => (.empty, [])

def start (t : ColorTree β) : List (ColorTree β) := left t []

variable (L) in
@[grind =] def stackItems : List (ColorTree β) → List α
  | .node _ _ y b :: rest => L.content y :: (L.items b ++ stackItems rest)
  | _ => []

def stackSize : List (ColorTree β) → Nat
  | .node _ _ _ b :: rest => b.size + stackSize rest + 1
  | _ => 0

theorem stackItems_left (t : ColorTree β) (rest : List (ColorTree β)) :
    stackItems L (left t rest) = L.items t ++ stackItems L rest := by
  fun_induction left t rest with
  | case1 rest => rfl
  | case2 color a y b rest ih => simp [ih, stackItems]

theorem stackSize_left (t : ColorTree β) (rest : List (ColorTree β)) :
    stackSize (left t rest) = t.size + stackSize rest := by
  fun_induction left t rest with
  | case1 rest => simp [ColorTree.size]
  | case2 color a y b rest ih =>
    rw [ih, stackSize, ColorTree.size]
    omega

theorem stackItems_start (t : ColorTree β) : stackItems L (start t) = L.items t := by
  simp [start, stackItems_left, stackItems]

theorem stackItems_of_empty (h : next stack = (.empty, rest)) : stackItems L stack = [] := by
  unfold next at h
  split at h
  · cases h
  · next notNode =>
      unfold stackItems
      split
      · exact (notNode _ _ _ _ _ rfl).elim
      · rfl

theorem stackItems_of_node {color : Color} {a b : ColorTree β} {y : β}
    (h : next stack = (.node color a y b, rest)) :
    stackItems L stack = L.content y :: stackItems L rest := by
  unfold next at h
  split at h
  · cases h
    rw [stackItems, stackItems_left]
  · cases h

theorem stackSize_of_node {color : Color} {a b : ColorTree β} {y : β}
    (h : next stack = (.node color a y b, rest)) : stackSize rest < stackSize stack := by
  unfold next at h
  split at h
  · cases h
    rw [stackSize, stackSize_left]
    omega
  · cases h

def pending : ColorTree β × List (ColorTree β) → Nat
  | (.empty, _) => 0
  | (.node .., rest) => stackSize rest + 1

theorem pending_next (stack : List (ColorTree β)) : pending (next stack) = stackSize stack := by
  unfold next
  split
  · rw [pending, stackSize, stackSize_left]
  · next notNode =>
      unfold stackSize
      split
      · exact (notNode _ _ _ _ _ rfl).elim
      · rfl

variable (L) in
def flush (walk : ColorTree β × List (ColorTree β)) (n : Int) (result : Digit α β) : Int × Digit α β :=
  match walk with
  | (.empty, _) => (n, result)
  | (.node _ _ y _, rest) => flush (next rest) (n + 1) (addItem L (L.content y) result)
termination_by pending walk
decreasing_by
  rw [pending_next, pending]
  omega

section Walkers

variable {α₁ β₁ α₂ β₂ K : Type} (L₁ : Layout α₁ β₁) (L₂ : Layout α₂ β₂) (L : Layout α β)
  [Ord K] (key₁ : α₁ → K) (key₂ : α₂ → K) (key : α → K)

@[grind =] def union (both : α → α → α) (tree1 tree2 : List (ColorTree β)) (n : Int) (result : Digit α β) :
    Int × Digit α β :=
  match _h1 : next tree1, _h2 : next tree2 with
  | (.empty, _), (.empty, _) => (n, result)
  | (.empty, _), walk2 => flush L walk2 n result
  | walk1, (.empty, _) => flush L walk1 n result
  | (.node _ _ x _, rest1), (.node _ _ y _, rest2) =>
      match compare (key (L.content x)) (key (L.content y)) with
      | .lt => union both rest1 tree2 (n + 1) (addItem L (L.content x) result)
      | .eq => union both rest1 rest2 (n + 1) (addItem L (both (L.content x) (L.content y)) result)
      | .gt => union both tree1 rest2 (n + 1) (addItem L (L.content y) result)
termination_by stackSize tree1 + stackSize tree2
decreasing_by
  all_goals
    have := stackSize_of_node _h1
    have := stackSize_of_node _h2
    omega

@[grind =] def intersect (both : α₁ → α₂ → α) (tree1 : List (ColorTree β₁)) (tree2 : List (ColorTree β₂)) (n : Int)
    (result : Digit α β) : Int × Digit α β :=
  match _h1 : next tree1, _h2 : next tree2 with
  | (.node _ _ x _, rest1), (.node _ _ y _, rest2) =>
      match compare (key₁ (L₁.content x)) (key₂ (L₂.content y)) with
      | .lt => intersect both rest1 tree2 n result
      | .eq => intersect both rest1 rest2 (n + 1) (addItem L (both (L₁.content x) (L₂.content y)) result)
      | .gt => intersect both tree1 rest2 n result
  | _, _ => (n, result)
termination_by stackSize tree1 + stackSize tree2
decreasing_by
  all_goals
    have := stackSize_of_node _h1
    have := stackSize_of_node _h2
    omega

def diff (tree1 tree2 : List (ColorTree β)) (n : Int) (result : Digit α β) : Int × Digit α β :=
  match _h1 : next tree1, _h2 : next tree2 with
  | (.empty, _), _ => (n, result)
  | walk1, (.empty, _) => flush L walk1 n result
  | (.node _ _ x _, rest1), (.node _ _ y _, rest2) =>
      match compare (key (L.content x)) (key (L.content y)) with
      | .lt => diff rest1 tree2 (n + 1) (addItem L (L.content x) result)
      | .eq => diff rest1 rest2 n result
      | .gt => diff tree1 rest2 n result
termination_by stackSize tree1 + stackSize tree2
decreasing_by
  all_goals
    have := stackSize_of_node _h1
    have := stackSize_of_node _h2
    omega

/-- The call of `mergef`: what the function makes of the items of one key, if anything. -/
def keep (item : Option α) (n : Int) (result : Digit α β) : Int × Digit α β :=
  match item with
  | some a => (n + 1, addItem L a result)
  | none => (n, result)

@[grind =] def merge (mergef : Option α₁ → Option α₂ → Option α) (tree1 : List (ColorTree β₁))
    (tree2 : List (ColorTree β₂)) (n : Int) (result : Digit α β) : Int × Digit α β :=
  match _h1 : next tree1, _h2 : next tree2 with
  | (.empty, _), (.empty, _) => (n, result)
  | (.empty, _), (.node _ _ y _, rest2) =>
      let (n, result) := keep L (mergef none (some (L₂.content y))) n result
      merge mergef tree1 rest2 n result
  | (.node _ _ x _, rest1), (.empty, _) =>
      let (n, result) := keep L (mergef (some (L₁.content x)) none) n result
      merge mergef rest1 tree2 n result
  | (.node _ _ x _, rest1), (.node _ _ y _, rest2) =>
      match compare (key₁ (L₁.content x)) (key₂ (L₂.content y)) with
      | .lt =>
          let (n, result) := keep L (mergef (some (L₁.content x)) none) n result
          merge mergef rest1 tree2 n result
      | .eq =>
          let (n, result) := keep L (mergef (some (L₁.content x)) (some (L₂.content y))) n result
          merge mergef rest1 rest2 n result
      | .gt =>
          let (n, result) := keep L (mergef none (some (L₂.content y))) n result
          merge mergef tree1 rest2 n result
termination_by stackSize tree1 + stackSize tree2
decreasing_by
  · have := stackSize_of_node _h2
    omega
  · have := stackSize_of_node _h1
    omega
  all_goals
    have := stackSize_of_node _h1
    have := stackSize_of_node _h2
    omega

variable {L₁ L₂ L key₁ key₂ key}

theorem flush_eq (stack : List (ColorTree β)) (n : Int) (result : Digit α β) :
    flush L (next stack) n result =
      (n + (stackItems L stack).length, addItems L (stackItems L stack) result) := by
  generalize walk : next stack = w
  fun_induction flush L w n result generalizing stack with
  | case1 n result rest => simp [stackItems_of_empty walk]
  | case2 n result color a y b rest ih =>
    rw [ih rest rfl, stackItems_of_node walk, addItems_cons]
    simp only [List.length_cons, Nat.cast_add, Nat.cast_one, Prod.mk.injEq, and_true]
    omega

theorem union_eq (both : α → α → α) (tree1 tree2 : List (ColorTree β)) (n : Int)
    (result : Digit α β) :
    let items := mergeItems key key (Option.merge both) (stackItems L tree1) (stackItems L tree2)
    union L key both tree1 tree2 n result = (n + items.length, addItems L items result) := by
  fun_induction union L key both tree1 tree2 n result with
  | case1 tree1 tree2 n result _ _ h1 h2 =>
    simp [stackItems_of_empty h1, stackItems_of_empty h2, mergeItems]
  | case2 tree1 tree2 n result _ h1 _ =>
    rw [flush_eq, stackItems_of_empty h1, mergeItems_left_rest (fun _ => rfl)]
  | case3 tree1 tree2 n result _ h2 _ =>
    rw [flush_eq, stackItems_of_empty h2, mergeItems_right_rest (fun _ => rfl)]
  | case4 tree1 tree2 n result _ _ x _ rest1 _ _ y _ rest2 h1 h2 lt ih =>
    rw [ih, stackItems_of_node h1, stackItems_of_node h2, mergeItems_lt lt]
    simp [Option.merge, add_assoc, add_comm]
  | case5 tree1 tree2 n result _ _ x _ rest1 _ _ y _ rest2 h1 h2 eq ih =>
    rw [ih, stackItems_of_node h1, stackItems_of_node h2, mergeItems_eq eq]
    simp [Option.merge, add_assoc, add_comm]
  | case6 tree1 tree2 n result _ _ x _ rest1 _ _ y _ rest2 h1 h2 gt ih =>
    rw [ih, stackItems_of_node h1, stackItems_of_node h2, mergeItems_gt gt]
    simp [Option.merge, add_assoc, add_comm]

theorem intersect_eq (both : α₁ → α₂ → α) (tree1 : List (ColorTree β₁)) (tree2 : List (ColorTree β₂))
    (n : Int) (result : Digit α β) :
    let items :=
      mergeItems key₁ key₂ (Option.map₂ both) (stackItems L₁ tree1) (stackItems L₂ tree2)
    intersect L₁ L₂ L key₁ key₂ both tree1 tree2 n result =
      (n + items.length, addItems L items result) := by
  fun_induction intersect L₁ L₂ L key₁ key₂ both tree1 tree2 n result with
  | case1 tree1 tree2 n result _ _ x _ rest1 _ _ y _ rest2 h1 h2 lt ih =>
    rw [ih, stackItems_of_node h1, stackItems_of_node h2, mergeItems_lt lt]
    simp
  | case2 tree1 tree2 n result _ _ x _ rest1 _ _ y _ rest2 h1 h2 eq ih =>
    rw [ih, stackItems_of_node h1, stackItems_of_node h2, mergeItems_eq eq]
    simp [add_assoc, add_comm]
  | case3 tree1 tree2 n result _ _ x _ rest1 _ _ y _ rest2 h1 h2 gt ih =>
    rw [ih, stackItems_of_node h1, stackItems_of_node h2, mergeItems_gt gt]
    simp
  | case4 tree1 tree2 n result notNodes =>
    have none : mergeItems key₁ key₂ (Option.map₂ both) (stackItems L₁ tree1)
        (stackItems L₂ tree2) = [] := by
      cases h1 : next tree1 with
      | mk first rest =>
        cases first with
        | empty =>
          rw [stackItems_of_empty h1]
          exact mergeItems_left_done (fun _ => rfl) _
        | node =>
          cases h2 : next tree2 with
          | mk first rest =>
            cases first with
            | empty =>
              rw [stackItems_of_empty h2]
              exact mergeItems_right_done (fun _ => rfl) _
            | node => exact (notNodes _ _ _ _ _ _ _ _ _ _ h1 h2).elim
    simp [none]

def without (o o' : Option α) : Option α := if o'.isSome then none else o

theorem diff_eq (tree1 tree2 : List (ColorTree β)) (n : Int) (result : Digit α β) :
    let items := mergeItems key key without (stackItems L tree1) (stackItems L tree2)
    diff L key tree1 tree2 n result = (n + items.length, addItems L items result) := by
  fun_induction diff L key tree1 tree2 n result with
  | case1 tree1 tree2 n result _ h1 =>
    simp [stackItems_of_empty h1, mergeItems_left_done, without]
  | case2 tree1 tree2 n result _ h2 _ =>
    rw [flush_eq, stackItems_of_empty h2, mergeItems_right_rest (fun _ => rfl)]
  | case3 tree1 tree2 n result _ _ x _ rest1 _ _ y _ rest2 h1 h2 lt ih =>
    rw [ih, stackItems_of_node h1, stackItems_of_node h2, mergeItems_lt lt]
    simp [without, add_assoc, add_comm]
  | case4 tree1 tree2 n result _ _ x _ rest1 _ _ y _ rest2 h1 h2 eq ih =>
    rw [ih, stackItems_of_node h1, stackItems_of_node h2, mergeItems_eq eq]
    simp [without]
  | case5 tree1 tree2 n result _ _ x _ rest1 _ _ y _ rest2 h1 h2 gt ih =>
    rw [ih, stackItems_of_node h1, stackItems_of_node h2, mergeItems_gt gt]
    simp [without]

theorem keep_eq (o : Option α) (n : Int) (result : Digit α β) :
    keep L o n result = (n + o.toList.length, addItems L o.toList result) := by
  cases o <;> simp [keep]

theorem merge_eq (mergef : Option α₁ → Option α₂ → Option α) (tree1 : List (ColorTree β₁))
    (tree2 : List (ColorTree β₂)) (n : Int) (result : Digit α β) :
    let items := mergeItems key₁ key₂ mergef (stackItems L₁ tree1) (stackItems L₂ tree2)
    merge L₁ L₂ L key₁ key₂ mergef tree1 tree2 n result =
      (n + items.length, addItems L items result) := by
  fun_induction merge L₁ L₂ L key₁ key₂ mergef tree1 tree2 n result with
  | case1 tree1 tree2 n result _ _ h1 h2 =>
    simp [stackItems_of_empty h1, stackItems_of_empty h2, mergeItems]
  | case2 tree1 tree2 n result _ _ _ y _ rest2 h1 h2 n' result' kept ih =>
    rw [keep_eq] at kept
    obtain ⟨rfl, rfl⟩ := Prod.mk.inj kept
    rw [ih, stackItems_of_empty h1, stackItems_of_node h2, mergeItems]
    simp [addItems_append, add_assoc]
  | case3 tree1 tree2 n result _ _ x _ rest1 _ h1 h2 n' result' kept ih =>
    rw [keep_eq] at kept
    obtain ⟨rfl, rfl⟩ := Prod.mk.inj kept
    rw [ih, stackItems_of_node h1, stackItems_of_empty h2, mergeItems]
    simp [addItems_append, add_assoc]
  | case4 tree1 tree2 n result _ _ x _ rest1 _ _ y _ rest2 h1 h2 lt n' result' kept ih =>
    rw [keep_eq] at kept
    obtain ⟨rfl, rfl⟩ := Prod.mk.inj kept
    rw [ih, stackItems_of_node h1, stackItems_of_node h2, mergeItems_lt lt]
    simp [addItems_append, add_assoc]
  | case5 tree1 tree2 n result _ _ x _ rest1 _ _ y _ rest2 h1 h2 eq n' result' kept ih =>
    rw [keep_eq] at kept
    obtain ⟨rfl, rfl⟩ := Prod.mk.inj kept
    rw [ih, stackItems_of_node h1, stackItems_of_node h2, mergeItems_eq eq]
    simp [addItems_append, add_assoc]
  | case6 tree1 tree2 n result _ _ x _ rest1 _ _ y _ rest2 h1 h2 gt n' result' kept ih =>
    rw [keep_eq] at kept
    obtain ⟨rfl, rfl⟩ := Prod.mk.inj kept
    rw [ih, stackItems_of_node h1, stackItems_of_node h2, mergeItems_gt gt]
    simp [addItems_append, add_assoc]

end Walkers

end Mythryl.RedBlack

/-! # Folds, filters and comparisons -/

namespace Mythryl.RedBlack
open ColoredTree SortedKeys

variable {α β γ : Type} (L : Layout α β)

def foldForward (f : α → γ → γ) : ColorTree β → γ → γ
  | .empty, accum => accum
  | .node _ a y b, accum => foldForward f b (f (L.content y) (foldForward f a accum))

def foldBackward (f : α → γ → γ) : ColorTree β → γ → γ
  | .empty, accum => accum
  | .node _ a y b, accum => foldBackward f a (f (L.content y) (foldBackward f b accum))

def filterWalk (predicate : β → Bool) : ColorTree β → Int → Digit α β → Int × Digit α β
  | .empty, n, result => (n, result)
  | .node _ a y b, n, result =>
      let (n, result) := filterWalk predicate a n result
      if predicate y then filterWalk predicate b (n + 1) (addItem L (L.content y) result)
      else filterWalk predicate b n result

def partitionWalk (predicate : β → Bool) :
    ColorTree β → Int → Digit α β → Int → Digit α β → Int × Digit α β × Int × Digit α β
  | .empty, n1, result1, n2, result2 => (n1, result1, n2, result2)
  | .node _ a y b, n1, result1, n2, result2 =>
      let (n1, result1, n2, result2) := partitionWalk predicate a n1 result1 n2 result2
      if predicate y then
        partitionWalk predicate b (n1 + 1) (addItem L (L.content y) result1) n2 result2
      else partitionWalk predicate b n1 result1 (n2 + 1) (addItem L (L.content y) result2)

def compareWalk (order : α → α → Ordering) (tree1 tree2 : List (ColorTree β)) : Ordering :=
  match _h1 : next tree1, _h2 : next tree2 with
  | (.empty, _), (.empty, _) => .eq
  | (.empty, _), _ => .lt
  | _, (.empty, _) => .gt
  | (.node _ _ x _, rest1), (.node _ _ y _, rest2) =>
      match order (L.content x) (L.content y) with
      | .eq => compareWalk order rest1 rest2
      | order => order
termination_by stackSize tree1
decreasing_by exact stackSize_of_node _h1

variable {L}

theorem foldForward_eq (f : α → γ → γ) (t : ColorTree β) (accum : γ) :
    foldForward L f t accum = (L.items t).foldl (fun accum a => f a accum) accum := by
  induction t generalizing accum with
  | empty => rfl
  | node color a y b left_ih right_ih =>
    rw [foldForward, left_ih, right_ih, Layout.items_tree_node, List.foldl_append, List.foldl_cons]

theorem foldBackward_eq (f : α → γ → γ) (t : ColorTree β) (accum : γ) :
    foldBackward L f t accum = (L.items t).foldr f accum := by
  induction t generalizing accum with
  | empty => rfl
  | node color a y b left_ih right_ih =>
    rw [foldBackward, left_ih, right_ih, Layout.items_tree_node, List.foldr_append, List.foldr_cons]

theorem filterWalk_eq (predicate : β → Bool) (t : ColorTree β) (n : Int) (result : Digit α β) :
    let items := (t.stored.filter predicate).map L.content
    filterWalk L predicate t n result = (n + items.length, addItems L items result) := by
  induction t generalizing n result with
  | empty => simp [filterWalk, ColorTree.stored]
  | node color a y b left_ih right_ih =>
    rw [filterWalk, left_ih, ColorTree.stored]
    simp only [List.filter_append, List.map_append, addItems_append, List.length_append]
    split
    · next keep =>
        rw [right_ih, List.filter_cons_of_pos keep]
        simp only [List.map_cons, addItems_cons, List.length_cons, Nat.cast_add, Nat.cast_one,
          Prod.mk.injEq, and_true]
        ring
    · next drop =>
        rw [right_ih, List.filter_cons_of_neg drop]
        simp only [Nat.cast_add, Prod.mk.injEq, and_true]
        ring

theorem partitionWalk_eq (predicate : β → Bool) (t : ColorTree β) (n1 n2 : Int)
    (result1 result2 : Digit α β) :
    partitionWalk L predicate t n1 result1 n2 result2 =
      ((filterWalk L predicate t n1 result1).1, (filterWalk L predicate t n1 result1).2,
        (filterWalk L (fun y => !predicate y) t n2 result2).1,
        (filterWalk L (fun y => !predicate y) t n2 result2).2) := by
  induction t generalizing n1 n2 result1 result2 with
  | empty => rfl
  | node color a y b left_ih right_ih =>
    rw [partitionWalk, left_ih, filterWalk, filterWalk]
    cases predicate y with
    | true => exact right_ih ..
    | false => exact right_ih ..

theorem stackItems_not_done {stack : List (ColorTree β)}
    (notDone : ∀ rest, next stack = (.empty, rest) → False) :
    ∃ a items, stackItems L stack = a :: items := by
  rcases walk : next stack with ⟨_ | ⟨color, a, y, b⟩, rest⟩
  · exact (notDone rest walk).elim
  · exact ⟨_, _, stackItems_of_node walk⟩

theorem compareWalk_eq (order : α → α → Ordering) (tree1 tree2 : List (ColorTree β)) :
    compareWalk L order tree1 tree2 =
      List.compareLex order (stackItems L tree1) (stackItems L tree2) := by
  fun_induction compareWalk L order tree1 tree2 with
  | case1 tree1 tree2 _ _ h1 h2 =>
    rw [stackItems_of_empty h1, stackItems_of_empty h2, List.compareLex_nil_nil]
  | case2 tree1 tree2 _ h1 notDone =>
    obtain ⟨y, items, eq⟩ := stackItems_not_done (L := L) notDone
    rw [stackItems_of_empty h1, eq, List.compareLex_nil_cons]
  | case3 tree1 tree2 _ h2 notDone =>
    obtain ⟨x, items, eq⟩ := stackItems_not_done (L := L) notDone
    rw [stackItems_of_empty h2, eq, List.compareLex_cons_nil]
  | case4 tree1 tree2 _ _ x _ rest1 _ _ y _ rest2 h1 h2 eq ih =>
    rw [stackItems_of_node h1, stackItems_of_node h2, List.compareLex_cons_cons, eq, ih]
    rfl
  | case5 tree1 tree2 _ _ x _ rest1 _ _ y _ rest2 h1 h2 ne =>
    rw [stackItems_of_node h1, stackItems_of_node h2, List.compareLex_cons_cons]
    cases first : order (L.content x) (L.content y) with
    | lt => rfl
    | eq => exact (ne first).elim
    | gt => rfl

/-!
# The invariant check of the tree packages

`all_invariants_hold` as maps and sets have it: the root is black, every path has the same number of
black nodes, a red node has a black parent, and the count in the header is right.
-/

@[grind =] def leftmostBlackdepth (n : Nat) : ColorTree β → Nat
  | .empty => n
  | .node .red left _ _ => leftmostBlackdepth n left
  | .node .black left _ _ => leftmostBlackdepth (n + 1) left

@[grind =] def checkBlackdepthOnAllPaths (blackDepth n : Nat) : ColorTree β → Bool
  | .empty => n == blackDepth
  | .node .black left _ right =>
      checkBlackdepthOnAllPaths blackDepth (n + 1) left &&
        checkBlackdepthOnAllPaths blackDepth (n + 1) right
  | .node .red left _ right =>
      checkBlackdepthOnAllPaths blackDepth n left && checkBlackdepthOnAllPaths blackDepth n right

def blackInvariantOk (tree : ColorTree β) : Bool :=
  checkBlackdepthOnAllPaths (leftmostBlackdepth 0 tree) 0 tree

@[grind =] def redInvariantOk (parentWasBlack : Bool) : ColorTree β → Bool
  | .empty => true
  | .node .red left _ right =>
      parentWasBlack && redInvariantOk false left && redInvariantOk false right
  | .node .black left _ right => redInvariantOk true left && redInvariantOk true right

def countNodes : ColorTree β → Int
  | .empty => 0
  | .node _ left _ right => countNodes left + countNodes right + 1

def nodecountOk (nodecount : Int) (tree : ColorTree β) : Bool := nodecount == countNodes tree

def allInvariantsHold (nodecount : Int) : ColorTree β → Bool
  | .empty => nodecount == 0
  | .node .red _ _ _ => false
  | tree => blackInvariantOk tree && redInvariantOk true tree && nodecountOk nodecount tree

theorem countNodes_eq (tree : ColorTree β) : countNodes tree = tree.size := by
  induction tree with
  | empty => rfl
  | node color left item right left_ih right_ih =>
    rw [countNodes, ColorTree.size, left_ih, right_ih]
    rfl

variable {c : Color} {h : Nat} {tree : ColorTree β}

theorem leftmostBlackdepth_balanced
    (balanced : Balanced tree c h) (n : Nat) : leftmostBlackdepth n tree = n + h := by
  induction balanced generalizing n with
  | empty => rfl
  | red item hl hr left_ih right_ih => exact left_ih n
  | black item hl hr left_ih right_ih => rw [leftmostBlackdepth, left_ih, Nat.add_right_comm]; rfl

theorem checkBlackdepth_balanced
    (balanced : Balanced tree c h) (n : Nat) : checkBlackdepthOnAllPaths (n + h) n tree = true := by
  induction balanced generalizing n with
  | empty => exact beq_self_eq_true n
  | red item hl hr left_ih right_ih => rw [checkBlackdepthOnAllPaths, left_ih, right_ih]; rfl
  | @black left right h _ _ item hl hr left_ih right_ih =>
    have one : n + (h + 1) = n + 1 + h := Nat.add_right_comm n h 1
    rw [checkBlackdepthOnAllPaths, one, left_ih, right_ih]
    rfl

theorem redInvariantOk_balanced (balanced : Balanced tree c h) (parentWasBlack : Bool)
    (ok : c = .red → parentWasBlack = true) : redInvariantOk parentWasBlack tree = true := by
  induction balanced generalizing parentWasBlack with
  | empty => rfl
  | red item hl hr left_ih right_ih =>
    rw [redInvariantOk, ok rfl, left_ih false (by simp), right_ih false (by simp)]
    rfl
  | black item hl hr left_ih right_ih =>
    rw [redInvariantOk, left_ih true (fun _ => rfl), right_ih true (fun _ => rfl)]
    rfl

theorem balanced_of_checks {blackDepth n : Nat} {parentWasBlack : Bool}
    (depths : checkBlackdepthOnAllPaths blackDepth n tree = true)
    (colors : redInvariantOk parentWasBlack tree = true) :
    ∃ h, blackDepth = n + h ∧ Balanced tree tree.rootColor h ∧
      (parentWasBlack = false → tree.rootColor = .black) := by
  induction tree generalizing n parentWasBlack with
  | empty => exact ⟨0, (beq_iff_eq.mp depths).symm, .empty, fun _ => rfl⟩
  | node color left item right left_ih right_ih =>
    cases color with
    | red =>
      simp only [checkBlackdepthOnAllPaths, redInvariantOk, Bool.and_eq_true] at depths colors
      obtain ⟨⟨parent, colorsLeft⟩, colorsRight⟩ := colors
      obtain ⟨h, eq, hl, blackLeft⟩ := left_ih depths.1 colorsLeft
      obtain ⟨h', eq', hr, blackRight⟩ := right_ih depths.2 colorsRight
      obtain rfl : h = h' := Nat.add_left_cancel (eq.symm.trans eq')
      rw [blackLeft rfl] at hl
      rw [blackRight rfl] at hr
      exact ⟨h, eq, .red item hl hr, fun no => absurd (parent.symm.trans no) (by simp)⟩
    | black =>
      simp only [checkBlackdepthOnAllPaths, redInvariantOk, Bool.and_eq_true] at depths colors
      obtain ⟨h, eq, hl, -⟩ := left_ih depths.1 colors.1
      obtain ⟨h', eq', hr, -⟩ := right_ih depths.2 colors.2
      obtain rfl : h = h' := Nat.add_left_cancel (eq.symm.trans eq')
      refine ⟨h + 1, ?_, .black item hl hr, fun _ => rfl⟩
      rw [eq, Nat.add_right_comm, Nat.add_assoc]

theorem allInvariantsHold_iff (nodecount : Int) (tree : ColorTree β) :
    allInvariantsHold nodecount tree = true ↔
      (∃ h, Balanced tree .black h) ∧ nodecount = tree.size := by
  cases tree with
  | empty =>
    constructor
    · intro holds
      exact ⟨⟨0, .empty⟩, beq_iff_eq.mp holds⟩
    · rintro ⟨-, count⟩
      exact beq_iff_eq.mpr count
  | node color left item right =>
    cases color with
    | red =>
      constructor
      · intro holds
        cases holds
      · rintro ⟨⟨h, balanced⟩, -⟩
        cases balanced
    | black =>
      simp only [allInvariantsHold, blackInvariantOk, nodecountOk, Bool.and_eq_true,
        beq_iff_eq, countNodes_eq]
      constructor
      · rintro ⟨⟨depths, colors⟩, count⟩
        obtain ⟨h, -, balanced, -⟩ := balanced_of_checks depths colors
        exact ⟨⟨h, balanced⟩, count⟩
      · rintro ⟨⟨h, balanced⟩, count⟩
        refine ⟨⟨?_, redInvariantOk_balanced balanced true (fun _ => rfl)⟩, count⟩
        rw [leftmostBlackdepth_balanced balanced]
        exact checkBlackdepth_balanced balanced 0

end Mythryl.RedBlack
