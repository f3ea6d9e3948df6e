import Mythryl.RedBlack.NumberedList

/-! # Runs of the numbered list -/

namespace Mythryl.RedBlackNumberedList
open ColoredTree RedBlack RedBlackNumberedSet

variable {X Y Z : Type}

theorem toImplicit_node (color : Color) (left right : ExplicitTree X) (item : Int × X) :
    (toImplicit (.node color left item right)).2 =
      (counted X).node color (toImplicit left).2 item.2 (toImplicit right).2 := by
  have count (t : ExplicitTree X) : (toImplicit t).1 = keysIn (toImplicit t).2 := by
    cases t <;> rfl
  calc (toImplicit (.node color left item right)).2
      = .node color (toImplicit left).2 (item.2, (toImplicit left).1 + (toImplicit right).1 + 1)
          (toImplicit right).2 := rfl
    _ = (counted X).node color (toImplicit left).2 item.2 (toImplicit right).2 := by
      rw [count left, count right]
      rfl

theorem items_toImplicit (t : ExplicitTree X) :
    (counted X).items (toImplicit t).2 = ((explicit X).items t).map Prod.snd := by
  induction t with
  | empty => rfl
  | node color left item right left_ih right_ih =>
    rw [toImplicit_node, Layout.items_node, left_ih, right_ih, Layout.items_tree_node,
      List.map_append, List.map_cons]
    rfl

theorem exact_toImplicit (t : ExplicitTree X) : (counted X).Exact (toImplicit t).2 := by
  induction t with
  | empty => exact .empty
  | node color left item right left_ih right_ih =>
    rw [toImplicit_node]
    exact .node color item.2 left_ih right_ih

theorem balanced_toImplicit {t : ExplicitTree X} {c : Color} {n : Nat} (h : Balanced t c n) :
    Balanced (toImplicit t).2 c n := by
  induction h with
  | empty => exact .empty
  | red item hl hr left_ih right_ih => exact .red _ left_ih right_ih
  | black item hl hr left_ih right_ih => exact .black _ left_ih right_ih

namespace NumberedList

structure Valid (s : NumberedList X) : Prop where
  exact : (counted X).Exact s.tree
  balanced : ∃ n, Balanced s.tree .black n

theorem valsList_eq (s : NumberedList X) : s.valsList = (counted X).items s.tree := by
  unfold valsList foldBackward
  rw [foldBackward_eq, List.foldr_cons_eq_append, List.map_id', List.append_nil]

theorem valid_empty : (empty : NumberedList X).Valid := ⟨.empty, 0, .empty⟩

theorem valid_singleton (value : X) : (singleton value).Valid :=
  ⟨.node .black value .empty .empty, 1, .black _ .empty .empty⟩

variable {t : NumberedTree X} {s s' : NumberedList X} {i : Int} {x : X}

theorem Valid.blacken (exact : (counted X).Exact t)
    (balanced : ∃ c n, Balanced t c n) : (⟨t.blacken⟩ : NumberedList X).Valid := by
  obtain ⟨c, n, balanced⟩ := balanced
  exact ⟨exact.blacken, balanced.blacken⟩

def Extends (before after : Digits X) : Prop :=
  ∃ items, after = addItems (explicit X) items before

theorem Extends.refl (digits : Digits X) : Extends digits digits := ⟨[], rfl⟩

theorem Extends.of_addItem {item : Int × X} {digits after : Digits X}
    (h : Extends (addItem (explicit X) item digits) after) : Extends digits after := by
  obtain ⟨items, rfl⟩ := h
  exact ⟨item :: items, rfl⟩

theorem Extends.trans {d1 d2 d3 : Digits X} (h : Extends d1 d2) (h' : Extends d2 d3) :
    Extends d1 d3 := by
  obtain ⟨items, rfl⟩ := h
  obtain ⟨items', rfl⟩ := h'
  exact ⟨items ++ items', (addItems_append ..).symm⟩

theorem valid_digitsToSequence {digits : Digits X} (h : Extends .zero digits) :
    (digitsToSequence digits).Valid := by
  obtain ⟨items, rfl⟩ := h
  obtain ⟨-, -, n, balanced⟩ := linkAll_addItems (L := explicit X) items
  exact ⟨exact_toImplicit _, n, balanced_toImplicit balanced⟩

theorem valsList_digitsToSequence (items : List (Int × X)) :
    (digitsToSequence (addItems (explicit X) items .zero)).valsList = items.map Prod.snd := by
  rw [valsList_eq, digitsToSequence, explicitTreeToImplicitTree, items_toImplicit,
    (linkAll_addItems (L := explicit X) items).1]

theorem extends_fromList (result : Digits X) (index : Int) (list : List X) :
    ∃ items, items.map Prod.snd = list ∧ fromList.loop result index list =
        digitsToSequence (addItems (explicit X) items result) := by
  induction list generalizing result index with
  | nil => exact ⟨[], rfl, rfl⟩
  | cons this rest ih =>
    obtain ⟨items, values, eq⟩ := ih (addItem (explicit X) (index, this) result) (index + 1)
    refine ⟨(index, this) :: items, ?_, eq⟩
    rw [List.map_cons, values]

theorem valid_fromList (list : List X) : (fromList list).Valid := by
  obtain ⟨items, -, eq⟩ := extends_fromList .zero 0 list
  unfold fromList
  rw [eq]
  exact valid_digitsToSequence ⟨items, rfl⟩

theorem valsList_fromList (list : List X) : (fromList list).valsList = list := by
  obtain ⟨items, values, eq⟩ := extends_fromList .zero 0 list
  unfold fromList
  rw [eq, valsList_digitsToSequence, values]

theorem extends_appendRest (walk : NumberedTree X × List (NumberedTree X)) (n : Int)
    (digits : Digits X) : Extends digits (appendRest walk n digits).2 := by
  fun_induction appendRest walk n digits with
  | case1 n digits rest => exact .refl digits
  | case2 n digits color a value count b rest ih => exact ih.of_addItem

theorem extends_unionWalk (mergeFn : Int → X → X → X) (tree1 tree2 : List (NumberedTree X))
    (n : Int) (result : Digits X) : Extends result (unionWalk mergeFn tree1 tree2 n result).2 := by
  fun_induction unionWalk mergeFn tree1 tree2 n result with
  | case1 => exact .refl _
  | case2 => exact extends_appendRest ..
  | case3 => exact extends_appendRest ..
  | case4 => next ih => exact ih.of_addItem

theorem extends_intersectWalk (mergeFn : Int → X → Y → Z) (tree1 : List (NumberedTree X))
    (tree2 : List (NumberedTree Y)) (n : Int) (result : Digits Z) :
    Extends result (intersectWalk mergeFn tree1 tree2 n result).2 := by
  fun_induction intersectWalk mergeFn tree1 tree2 n result with
  | case1 => next ih => exact ih.of_addItem
  | case2 => exact .refl _

theorem extends_keepAt (answer : Option Z) (n : Int) (result : Digits Z) :
    Extends result (keepAt answer n result).2 := by
  cases answer with
  | none => exact .refl result
  | some val2 => exact ⟨[(n, val2)], rfl⟩

theorem extends_mergeWalk (mergeFn : Int → Option X → Option Y → Option Z)
    (tree1 : List (NumberedTree X)) (tree2 : List (NumberedTree Y)) (n : Int) (result : Digits Z) :
    Extends result (mergeWalk mergeFn tree1 tree2 n result).2 := by
  -- every case but the last calls the function once and walks on
  have step {answer : Option Z} {n n' : Int} {result result' after : Digits Z}
      (kept : keepAt answer n result = (n', result')) (ih : Extends result' after) :
      Extends result after := by
    have first := extends_keepAt answer n result
    rw [kept] at first
    exact first.trans ih
  fun_induction mergeWalk mergeFn tree1 tree2 n result with
  | case1 => exact .refl _
  | case2 => next kept ih => exact step kept ih
  | case3 => next kept ih => exact step kept ih
  | case4 => next kept ih => exact step kept ih

theorem extends_filterIn (predicate : Int → X → Bool) (t : NumberedTree X) (n : Int)
    (digits : Digits X) : Extends digits (filterIn predicate t n digits) := by
  fun_induction filterIn predicate t n digits with
  | case1 n digits => exact .refl digits
  | case2 color left value count right n digits digits' keep left_ih right_ih =>
    exact left_ih.trans right_ih.of_addItem
  | case3 color left value count right n digits digits' drop left_ih right_ih =>
    exact left_ih.trans right_ih

theorem valid_keyedUnionWith (mergeFn : Int → X → X → X) (s1 s2 : NumberedList X) :
    (s1.keyedUnionWith mergeFn s2).Valid := valid_digitsToSequence (extends_unionWalk ..)

theorem valid_keyedIntersectWith (mergeFn : Int → X → Y → Z) (s1 : NumberedList X)
    (s2 : NumberedList Y) : (s1.keyedIntersectWith mergeFn s2).Valid :=
  valid_digitsToSequence (extends_intersectWalk ..)

theorem valid_keyedMergeWith (mergeFn : Int → Option X → Option Y → Option Z)
    (s1 : NumberedList X) (s2 : NumberedList Y) : (s1.keyedMergeWith mergeFn s2).Valid :=
  valid_digitsToSequence (extends_mergeWalk ..)

theorem valid_keyedFilter (predicate : Int → X → Bool) (s : NumberedList X) :
    (s.keyedFilter predicate).Valid := valid_digitsToSequence (extends_filterIn ..)

theorem mapf_snd (f : Int → X → Y) (n : Int) (color : Color) (left right : NumberedTree X)
    (value : X) (count : Int) :
    ∃ n' y, (mapf f n (.node color left (value, count) right)).2 =
      .node color (mapf f n left).2 (y, count) (mapf f n' right).2 := ⟨_, _, rfl⟩

theorem keysIn_mapf (f : Int → X → Y) (n : Int) (t : NumberedTree X) :
    keysIn (mapf f n t).2 = keysIn t := by
  cases t <;> rfl

theorem exact_mapf (f : Int → X → Y) (n : Int) (exact : (counted X).Exact t) :
    (counted Y).Exact (mapf f n t).2 := by
  induction t generalizing n with
  | empty => exact .empty
  | node color left item right left_ih right_ih =>
    obtain ⟨exactLeft, exactRight, stored⟩ := exact.tree_node
    obtain ⟨n', y, eq⟩ := mapf_snd f n color left right item.1 item.2
    have count : item.2 = keysIn (mapf f n left).2 + keysIn (mapf f n' right).2 + 1 := by
      rw [keysIn_mapf, keysIn_mapf]
      exact congrArg Prod.snd stored
    rw [eq, count]
    exact .node color y (left_ih n exactLeft) (right_ih n' exactRight)

theorem balanced_mapf (f : Int → X → Y) (n : Int) {c : Color} {h : Nat}
    (balanced : Balanced t c h) : Balanced (mapf f n t).2 c h := by
  induction balanced generalizing n with
  | empty => exact .empty
  | red item hl hr left_ih right_ih => exact .red _ (left_ih n) (right_ih _)
  | black item hl hr left_ih right_ih => exact .black _ (left_ih n) (right_ih _)

theorem Valid.keyedMap (f : Int → X → Y) (valid : s.Valid) : (s.keyedMap f).Valid := by
  obtain ⟨h, balanced⟩ := valid.balanced
  exact ⟨exact_mapf f 0 valid.exact, h, balanced_mapf f 0 balanced⟩

theorem Valid.of_set {v : X} (valid : s.Valid) (result : s.set i v = .ok s') : s'.Valid := by
  unfold set at result
  split at result
  · cases result
  · obtain ⟨t, inserted, rfl⟩ := bind_pure_eq_ok.mp result
    obtain ⟨n, balanced⟩ := valid.balanced
    obtain ⟨c, balanced'⟩ := balanced_setIn balanced inserted
    exact .blacken (exact_setIn valid.exact inserted) ⟨c, n, balanced'⟩

theorem set_inside (valid : s.Valid) (v : X) (nonneg : 0 ≤ i) (le : i ≤ s.valsList.length) :
    ∃ s', s.set i v = .ok s' ∧ s'.Valid ∧ s'.valsList = s.valsList.insertIdx i.toNat v := by
  rw [valsList_eq] at le
  obtain ⟨t, result, items⟩ := setIn_ok v valid.exact nonneg le
  have result' : s.set i v = .ok ⟨t.blacken⟩ := by
    unfold set
    rw [if_neg (not_lt.mpr nonneg), result]
    rfl
  refine ⟨_, result', valid.of_set result', ?_⟩
  rw [valsList_eq, valsList_eq, Layout.items_blacken, items]

theorem set_outside (valid : s.Valid) (v : X)
    (outside : i < 0 ∨ s.valsList.length < i) : s.set i v = .error .subscript := by
  unfold set
  split
  · rfl
  · next nonneg =>
      have past := outside.resolve_left nonneg
      rw [valsList_eq] at past
      rw [setIn_error v valid.exact past]
      rfl

theorem set_eq_subscript_iff (valid : s.Valid) (i : Int) (v : X) :
    s.set i v = .error .subscript ↔ i < 0 ∨ s.valsList.length < i := by
  constructor
  · intro raised
    by_contra inside
    obtain ⟨nonneg, le⟩ := not_or.mp inside
    obtain ⟨s', result, -⟩ := set_inside valid v (not_lt.mp nonneg) (not_lt.mp le)
    cases raised.symm.trans result
  · exact set_outside valid v

theorem find_eq (valid : s.Valid) (nonneg : 0 ≤ i) : s.find i = .ok s.valsList[i.toNat]? := by
  rw [valsList_eq]
  exact findIn_eq valid.exact nonneg

theorem find_negative (s : NumberedList X) (negative : i < 0) :
    s.find i = .ok none ∨ s.find i = .error .subscript := by
  unfold find
  cases s.tree with
  | empty => exact .inl rfl
  | node color left item right =>
    rw [findIn, if_pos negative]
    exact .inr rfl

theorem get_inside (valid : s.Valid) (nonneg : 0 ≤ i)
    (at_i : s.valsList[i.toNat]? = some x) : s.get i = .ok x := by
  unfold get
  rw [find_eq valid nonneg, at_i]
  rfl

theorem get_outside (valid : s.Valid)
    (outside : i < 0 ∨ s.valsList.length ≤ i) : s.get i = .error .subscript := by
  unfold get
  cases lt_or_ge i 0 with
  | inl negative =>
    cases find_negative s negative with
    | inl absent => rw [absent]; rfl
    | inr raised => rw [raised]; rfl
  | inr nonneg =>
    have past : s.valsList.length ≤ i.toNat := by omega
    rw [find_eq valid nonneg, List.getElem?_eq_none past]
    rfl

theorem remove_negative (s : NumberedList X) (negative : i < 0) :
    s.remove i = .error .subscript := by
  unfold remove
  rw [if_pos negative]

theorem remove_past (valid : s.Valid)
    (past : s.valsList.length ≤ i) : s.remove i = .error .notFound := by
  have nonneg : 0 ≤ i := by omega
  unfold remove
  rw [if_neg (not_lt.mpr nonneg), find_eq valid nonneg, List.getElem?_eq_none (by omega)]
  rfl

theorem remove_inside (valid : s.Valid) (nonneg : 0 ≤ i) (at_i : s.valsList[i.toNat]? = some x) :
    ∃ s', s.remove i = .ok (s', x) ∧ s'.Valid ∧ s'.valsList = s.valsList.eraseIdx i.toNat := by
  have lt : i < ((counted X).items s.tree).length := by
    have index := (List.getElem?_eq_some_iff.mp at_i).1
    rw [valsList_eq] at index
    omega
  obtain ⟨t, result, items⟩ := descend_present .top valid.exact nonneg lt
  have exact' := exact_descend valid.exact (show DescentPath.top.Exact (counted X) from trivial) result
  obtain ⟨n, balanced⟩ := valid.balanced
  have balanced' := balanced_descend balanced (.top n) (fun _ => rfl) result
  refine ⟨⟨t.blacken⟩, ?_, .blacken exact' balanced', ?_⟩
  · unfold remove
    rw [if_neg (not_lt.mpr nonneg), find_eq valid nonneg, at_i]
    simp only [bind, Except.bind, result]
    rfl
  · rw [valsList_eq, valsList_eq, Layout.items_blacken, items, DescentPath.before,
      DescentPath.after, List.nil_append, List.append_nil]

theorem Valid.of_remove (valid : s.Valid) (result : s.remove i = .ok (s', x)) : s'.Valid := by
  cases lt_or_ge i 0 with
  | inl negative => cases result.symm.trans (remove_negative s negative)
  | inr nonneg =>
    cases at_i : s.valsList[i.toNat]? with
    | none =>
      have past := List.getElem?_eq_none_iff.mp at_i
      cases result.symm.trans (remove_past valid (by omega))
    | some y =>
      obtain ⟨s'', result', valid', -⟩ := remove_inside valid nonneg at_i
      cases result.symm.trans result'
      exact valid'

theorem remove_eq_notFound_iff (valid : s.Valid) (i : Int) :
    s.remove i = .error .notFound ↔ s.valsList.length ≤ i := by
  constructor
  · intro raised
    by_contra lt
    cases lt_or_ge i 0 with
    | inl negative => cases raised.symm.trans (remove_negative s negative)
    | inr nonneg =>
      have index : i.toNat < s.valsList.length := by omega
      obtain ⟨s', result, -⟩ := remove_inside valid nonneg (List.getElem?_eq_getElem index)
      cases raised.symm.trans result
  · exact remove_past valid

theorem remove_eq_subscript_iff (valid : s.Valid) (i : Int) :
    s.remove i = .error .subscript ↔ i < 0 := by
  constructor
  · intro raised
    by_contra nonneg
    cases at_i : s.valsList[i.toNat]? with
    | none =>
      have past := List.getElem?_eq_none_iff.mp at_i
      cases raised.symm.trans (remove_past valid (by omega))
    | some y =>
      obtain ⟨s', result, -⟩ := remove_inside valid (not_lt.mp nonneg) at_i
      cases raised.symm.trans result
  · exact remove_negative s

theorem valsCount_eq (valid : s.Valid) : s.valsCount = s.valsList.length := by
  rw [valsList_eq]
  exact kidsOf_eq valid.exact

theorem push_eq (valid : s.Valid) (v : X) :
    ∃ s', s.push v = .ok s' ∧ s'.Valid ∧ s'.valsList = s.valsList ++ [v] := by
  unfold push
  rw [valsCount_eq valid]
  obtain ⟨s', result, valid', vals⟩ := set_inside valid v (Int.natCast_nonneg _) (le_refl _)
  refine ⟨s', result, valid', ?_⟩
  rw [vals, Int.toNat_natCast, List.insertIdx_length_self]

theorem unshift_eq (valid : s.Valid) (v : X) :
    ∃ s', s.unshift v = .ok s' ∧ s'.Valid ∧ s'.valsList = v :: s.valsList := by
  unfold unshift
  obtain ⟨s', result, valid', vals⟩ := set_inside valid v (le_refl 0) (Int.natCast_nonneg _)
  exact ⟨s', result, valid', vals⟩

theorem shift_empty (valid : s.Valid) (nothing : s.valsList = []) : s.shift = .ok none := by
  have past : (s.valsList.length : Int) ≤ 0 := by
    rw [nothing]
    exact le_refl 0
  unfold shift
  rw [remove_past valid past]

theorem shift_cons (valid : s.Valid) {rest : List X} (vals : s.valsList = x :: rest) :
    ∃ s', s.shift = .ok (some (s', x)) ∧ s'.Valid ∧ s'.valsList = rest := by
  have first : s.valsList[(0 : Int).toNat]? = some x := by
    rw [vals]
    rfl
  obtain ⟨s', result, valid', vals'⟩ := remove_inside valid (le_refl 0) first
  refine ⟨s', ?_, valid', ?_⟩
  · unfold shift
    rw [result]
  · rw [vals', vals]
    rfl

theorem pop_empty (valid : s.Valid) (nothing : s.valsList = []) : s.pop = .ok none := by
  unfold pop
  rw [valsCount_eq valid, nothing]
  rfl

theorem pop_append (valid : s.Valid) {rest : List X} (vals : s.valsList = rest ++ [x]) :
    ∃ s', s.pop = .ok (some (s', x)) ∧ s'.Valid ∧ s'.valsList = rest := by
  have last : s.valsList[(rest.length : Int).toNat]? = some x := by
    rw [vals, Int.toNat_natCast, List.getElem?_concat_length]
  obtain ⟨s', result, valid', vals'⟩ := remove_inside valid (Int.natCast_nonneg _) last
  have count : s.valsCount = rest.length + 1 := by
    rw [valsCount_eq valid, vals, List.length_append]
    rfl
  refine ⟨s', ?_, valid', ?_⟩
  · unfold pop
    rw [count]
    split
    · next zero => omega
    · rw [add_sub_cancel_right, result]
      rfl
  · rw [vals', vals, Int.toNat_natCast, List.eraseIdx_append_of_length_le (le_refl _),
      Nat.sub_self, List.eraseIdx_cons_zero, List.append_nil]

theorem Valid.of_push {v : X} (valid : s.Valid)
    (result : s.push v = .ok s') : s'.Valid := valid.of_set result

theorem Valid.of_shift (valid : s.Valid) (result : s.shift = .ok (some (s', x))) : s'.Valid := by
  unfold shift at result
  split at result
  · next removed =>
      cases result
      exact valid.of_remove removed
  · cases result
  · cases result

theorem Valid.of_pop (valid : s.Valid) (result : s.pop = .ok (some (s', x))) : s'.Valid := by
  unfold pop at result
  split at result
  · cases result
  · obtain ⟨r, removed, ⟨⟩⟩ := bind_pure_eq_ok.mp result
    exact valid.of_remove removed

theorem map'_eq (f : X → Option Y) :
    ∃ s', s.map' f = .ok s' ∧ s'.Valid ∧ s'.valsList = s.valsList.filterMap f := by
  have step (op : Except Raised (NumberedList Y) → X → Except Raised (NumberedList Y))
      (skips : ∀ accum value, f value = none → op accum value = accum)
      (pushes : ∀ accum value value', f value = some value' →
        op (.ok accum) value = accum.push value')
      (vals : List X) {accum : NumberedList Y} (valid : accum.Valid) :
      ∃ s', vals.foldl op (.ok accum) = .ok s' ∧ s'.Valid ∧
        s'.valsList = accum.valsList ++ vals.filterMap f := by
    induction vals generalizing accum with
    | nil => exact ⟨accum, rfl, valid, (List.append_nil _).symm⟩
    | cons value vals ih =>
      rw [List.foldl_cons, List.filterMap_cons]
      cases found : f value with
      | none =>
        rw [skips _ _ found]
        exact ih valid
      | some value' =>
        obtain ⟨next, pushed, valid', vals'⟩ := push_eq valid value'
        obtain ⟨s', result, valid'', vals''⟩ := ih valid'
        refine ⟨s', ?_, valid'', ?_⟩
        · rw [pushes _ _ _ found, pushed]
          exact result
        · rw [vals'', vals', List.append_assoc]
          rfl
  unfold map' foldForward
  rw [foldForward_eq, valsList_eq]
  refine step _ (fun accum value found => ?_) (fun accum value value' found => ?_) _ valid_empty
  all_goals
    rw [found]
  rfl

theorem keyedMap'_eq (f : Int → X → Option Y) (s : NumberedList X) :
    ∃ s', s.keyedMap' f = .ok s' ∧ s'.Valid := by
  have step (op : Int → X → Except Raised (NumberedList Y) → Except Raised (NumberedList Y))
      (skips : ∀ key value accum, f key value = none → op key value accum = accum)
      (pushes : ∀ key value accum value', f key value = some value' →
        op key value (.ok accum) = accum.push value')
      (t : NumberedTree X) (key : Int) {accum : NumberedList Y} (valid : accum.Valid) :
      ∃ s', (keyedFoldf op t (.ok accum) key).1 = .ok s' ∧ s'.Valid := by
    induction t generalizing accum key with
    | empty => exact ⟨accum, rfl, valid⟩
    | node color left item right left_ih right_ih =>
      obtain ⟨accum', result, valid'⟩ := left_ih key valid
      rw [keyedFoldf]
      cases run : keyedFoldf op left (.ok accum) key with
      | mk folded key' =>
        rw [run] at result
        obtain rfl : folded = .ok accum' := result
        dsimp only
        cases found : f key' item.1 with
        | none =>
          rw [skips _ _ _ found]
          exact right_ih (key' + 1) valid'
        | some value' =>
          obtain ⟨accum'', pushed, valid'', -⟩ := push_eq valid' value'
          rw [pushes _ _ _ _ found, pushed]
          exact right_ih (key' + 1) valid''
  refine step _ (fun key value accum found => ?_) (fun key value accum value' found => ?_) s.tree 0
    valid_empty
  all_goals
    rw [found]
  rfl

inductive Reachable : {X : Type} → NumberedList X → Prop
  | empty {X : Type} : Reachable (empty : NumberedList X)
  | singleton {X : Type} (value : X) : Reachable (singleton value)
  | fromList {X : Type} (list : List X) : Reachable (fromList list)
  | set {X : Type} {s s' : NumberedList X} {i : Int} {v : X} :
      Reachable s → s.set i v = .ok s' → Reachable s'
  | remove {X : Type} {s s' : NumberedList X} {i : Int} {x : X} :
      Reachable s → s.remove i = .ok (s', x) → Reachable s'
  | push {X : Type} {s s' : NumberedList X} {v : X} :
      Reachable s → s.push v = .ok s' → Reachable s'
  | unshift {X : Type} {s s' : NumberedList X} {v : X} :
      Reachable s → s.unshift v = .ok s' → Reachable s'
  | pop {X : Type} {s s' : NumberedList X} {x : X} :
      Reachable s → s.pop = .ok (some (s', x)) → Reachable s'
  | shift {X : Type} {s s' : NumberedList X} {x : X} :
      Reachable s → s.shift = .ok (some (s', x)) → Reachable s'
  | keyedUnionWith {X : Type} {s1 s2 : NumberedList X} (mergeFn : Int → X → X → X) :
      Reachable s1 → Reachable s2 → Reachable (s1.keyedUnionWith mergeFn s2)
  | unionWith {X : Type} {s1 s2 : NumberedList X} (mergeFn : X → X → X) :
      Reachable s1 → Reachable s2 → Reachable (s1.unionWith mergeFn s2)
  | keyedIntersectWith {X Y Z : Type} {s1 : NumberedList X} {s2 : NumberedList Y}
      (mergeFn : Int → X → Y → Z) :
      Reachable s1 → Reachable s2 → Reachable (s1.keyedIntersectWith mergeFn s2)
  | intersectWith {X Y Z : Type} {s1 : NumberedList X} {s2 : NumberedList Y}
      (mergeFn : X → Y → Z) :
      Reachable s1 → Reachable s2 → Reachable (s1.intersectWith mergeFn s2)
  | keyedMergeWith {X Y Z : Type} {s1 : NumberedList X} {s2 : NumberedList Y}
      (mergeFn : Int → Option X → Option Y → Option Z) :
      Reachable s1 → Reachable s2 → Reachable (s1.keyedMergeWith mergeFn s2)
  | mergeWith {X Y Z : Type} {s1 : NumberedList X} {s2 : NumberedList Y}
      (mergeFn : Option X → Option Y → Option Z) :
      Reachable s1 → Reachable s2 → Reachable (s1.mergeWith mergeFn s2)
  | keyedMap {X Y : Type} {s : NumberedList X} (f : Int → X → Y) :
      Reachable s → Reachable (s.keyedMap f)
  | map {X Y : Type} {s : NumberedList X} (f : X → Y) : Reachable s → Reachable (s.map f)
  | keyedFilter {X : Type} {s : NumberedList X} (predicate : Int → X → Bool) :
      Reachable s → Reachable (s.keyedFilter predicate)
  | filter {X : Type} {s : NumberedList X} (predicate : X → Bool) :
      Reachable s → Reachable (s.filter predicate)
  | keyedMap' {X Y : Type} {s : NumberedList X} {s' : NumberedList Y} (f : Int → X → Option Y) :
      Reachable s → s.keyedMap' f = .ok s' → Reachable s'
  | map' {X Y : Type} {s : NumberedList X} {s' : NumberedList Y} (f : X → Option Y) :
      Reachable s → s.map' f = .ok s' → Reachable s'

theorem Reachable.valid (reachable : Reachable s) : s.Valid := by
  induction reachable with
  | empty => exact valid_empty
  | singleton value => exact valid_singleton value
  | fromList list => exact valid_fromList list
  | set _ result ih => exact ih.of_set result
  | remove _ result ih => exact ih.of_remove result
  | push _ result ih => exact ih.of_push result
  | unshift _ result ih => exact ih.of_set result
  | pop _ result ih => exact ih.of_pop result
  | shift _ result ih => exact ih.of_shift result
  | keyedUnionWith mergeFn => exact valid_keyedUnionWith mergeFn _ _
  | unionWith mergeFn => exact valid_keyedUnionWith _ _ _
  | keyedIntersectWith mergeFn => exact valid_keyedIntersectWith mergeFn _ _
  | intersectWith mergeFn => exact valid_keyedIntersectWith _ _ _
  | keyedMergeWith mergeFn => exact valid_keyedMergeWith mergeFn _ _
  | mergeWith mergeFn => exact valid_keyedMergeWith _ _ _
  | keyedMap f _ ih => exact ih.keyedMap f
  | map f _ ih => exact ih.keyedMap _
  | keyedFilter predicate => exact valid_keyedFilter predicate _
  | filter predicate => exact valid_keyedFilter _ _
  | @keyedMap' X Y s s' f _ result ih =>
    obtain ⟨s'', result', valid⟩ := keyedMap'_eq f s
    cases result.symm.trans result'
    exact valid
  | @map' X Y s s' f _ result ih =>
    obtain ⟨s'', result', valid, -⟩ := map'_eq f (s := s)
    cases result.symm.trans result'
    exact valid

theorem allInvariantsHold_of (valid : s.Valid) : s.allInvariantsHold = true := by
  obtain ⟨n, balanced⟩ := valid.balanced
  exact RedBlackNumberedSet.allInvariantsHold_of (s := ⟨s.tree⟩) balanced
    (countsExact_of_exact valid.exact)

/-- Lookup, insertion and removal by position are those of the plain list of the values, push, pop,
shift and unshift are at its ends, and the tree keeps its rules. -/
theorem plain_list {s : NumberedList X} (reachable : Reachable s) (i : Int) (v : X) :
    (s.set i v = .error .subscript ↔ i < 0 ∨ s.valsList.length < i) ∧
    (0 ≤ i → i ≤ s.valsList.length →
      ∃ s', s.set i v = .ok s' ∧ s'.valsList = s.valsList.insertIdx i.toNat v) ∧
    (s.remove i = .error .notFound ↔ s.valsList.length ≤ i) ∧
    (s.remove i = .error .subscript ↔ i < 0) ∧ (∀ x, 0 ≤ i → s.valsList[i.toNat]? = some x →
      s.find i = .ok (some x) ∧ s.get i = .ok x ∧
      ∃ s', s.remove i = .ok (s', x) ∧ s'.valsList = s.valsList.eraseIdx i.toNat) ∧
    (s.valsList.length ≤ i → s.find i = .ok none) ∧
    (i < 0 ∨ s.valsList.length ≤ i → s.get i = .error .subscript) ∧
    (∃ s', s.push v = .ok s' ∧ s'.valsList = s.valsList ++ [v]) ∧
    (∃ s', s.unshift v = .ok s' ∧ s'.valsList = v :: s.valsList) ∧
    (s.valsList = [] → s.pop = .ok none ∧ s.shift = .ok none) ∧
    (∀ x rest, s.valsList = rest ++ [x] → ∃ s', s.pop = .ok (some (s', x)) ∧ s'.valsList = rest) ∧
    (∀ x rest, s.valsList = x :: rest → ∃ s', s.shift = .ok (some (s', x)) ∧ s'.valsList = rest) ∧
    CountsExact s.tree ∧ (∃ n, Balanced s.tree .black n) ∧ s.allInvariantsHold = true := by
  have valid := reachable.valid
  refine ⟨set_eq_subscript_iff valid i v, ?inserted, remove_eq_notFound_iff valid i,
    remove_eq_subscript_iff valid i, ?present, ?absent, get_outside valid, ?pushed, ?unshifted,
    fun nothing => ⟨pop_empty valid nothing, shift_empty valid nothing⟩, ?popped, ?shifted,
    countsExact_of_exact valid.exact, valid.balanced, allInvariantsHold_of valid⟩
  case inserted =>
    intro nonneg le
    obtain ⟨s', result, -, vals⟩ := set_inside valid v nonneg le
    exact ⟨s', result, vals⟩
  case present =>
    intro x nonneg at_i
    obtain ⟨s', result, -, vals⟩ := remove_inside valid nonneg at_i
    refine ⟨?_, get_inside valid nonneg at_i, s', result, vals⟩
    rw [find_eq valid nonneg, at_i]
  case absent =>
    intro past
    rw [find_eq valid (by omega), List.getElem?_eq_none (by omega)]
  case pushed =>
    obtain ⟨s', result, -, vals⟩ := push_eq valid v
    exact ⟨s', result, vals⟩
  case unshifted =>
    obtain ⟨s', result, -, vals⟩ := unshift_eq valid v
    exact ⟨s', result, vals⟩
  case popped =>
    intro x rest vals
    obtain ⟨s', result, -, vals'⟩ := pop_append valid vals
    exact ⟨s', result, vals'⟩
  case shifted =>
    intro x rest vals
    obtain ⟨s', result, -, vals'⟩ := shift_cons valid vals
    exact ⟨s', result, vals'⟩

theorem plain_list_second :
    (fromList ["a", "b", "c"]).get 1 = .ok "b" ∧
    (∃ s', (fromList ["a", "b", "c"]).remove 1 = .ok (s', "b") ∧ s'.valsList = ["a", "c"]) ∧
    (fromList ["a", "b", "c"]).set 5 "d" = .error .subscript := by
  have vals : (fromList ["a", "b", "c"]).valsList = ["a", "b", "c"] := valsList_fromList _
  have second : (fromList ["a", "b", "c"]).valsList[(1 : Int).toNat]? = some "b" := by
    rw [vals]
    rfl
  obtain ⟨-, -, -, -, present, -⟩ := plain_list (.fromList ["a", "b", "c"]) 1 "d"
  obtain ⟨-, got, s', removed, rest⟩ := present "b" (by decide) second
  obtain ⟨raised, -⟩ := plain_list (.fromList ["a", "b", "c"]) 5 "d"
  refine ⟨got, ⟨s', removed, ?_⟩, raised.mpr ?_⟩
  · rw [rest, vals]
    rfl
  · rw [vals]
    decide

end NumberedList

end Mythryl.RedBlackNumberedList
