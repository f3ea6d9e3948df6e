import Mythryl.RaisingState
import Mythryl.RedBlack.Map
import Mythryl.StronglyConnected.Search
import Mathlib.Data.Finset.Card
import Mathlib.Data.Set.Finite.Basic
import Mathlib.Order.Interval.Finset.Nat

/-!
# The components of a digraph in topological order

`digraph_strongly_connected_components_g`: a depth-first search that passes fates and states; the
low numbers are in ref cells.
-/

namespace Mythryl.DigraphStronglyConnectedComponents
open RaisingState RedBlackMap

/-- `FAIL`, a ref cell that does not exist, or a search that has not come to an end. -/
inductive Raised
  | fail (text : String)
  | dangling | unfinished
  deriving DecidableEq, Repr

inductive Component (K : Type)
  | simple (node : K)
  | recursive (nodes : List K)
  deriving DecidableEq, Repr

abbrev RefCell := Nat

structure Numbers where
  pre : Nat
  low : RefCell
  deriving DecidableEq, Repr

abbrev Nodemap (K : Type) := Nat × Map K Numbers

abbrev Calling (A : Type) := Raising Raised (List Nat) A

abbrev NograbFate (K : Type) :=
  Nodemap K → List K → List (Component K) → Calling (List (Component K))

abbrev GrabFate (K : Type) :=
  Nodemap K → List (Component K) → List K → List K → Calling (List (Component K))

structure Args (K : Type) where
  followNodes : List K
  grabFate : GrabFate K
  nodePre : Nat
  nodeLow : RefCell
  parentLow : RefCell
  nodemap : Nodemap K
  stack : List K
  sccl : List (Component K)
  nograbFate : NograbFate K

section Operations

def ref (n : Nat) : Calling RefCell := do
  let cells ← get
  set (cells ++ [n])
  return cells.length

def deref (r : RefCell) : Calling Nat := do
  match (← get)[r]? with
  | some n => return n
  | none => throw .dangling

def assign (r : RefCell) (n : Nat) : Calling Unit := modify fun cells => cells.set r n

variable {K : Type} [Ord K]

def eq (x y : K) : Bool := compare x y == .eq

variable (follow : K → List K)

def component (x : K) : List K → Component K
  | [] => if (follow x).any (eq x) then .recursive [x] else .simple x
  | xl => .recursive (x :: xl)

def grab (tn : K) (tnNograbFate : NograbFate K) (nodemap : Nodemap K)
    (sccl : List (Component K)) : List K → List K → Calling (List (Component K))
  | top :: stack, scc =>
      if eq tn top then tnNograbFate nodemap stack (component follow top scc :: sccl)
      else grab tn tnNograbFate nodemap sccl stack (top :: scc)
  | [], _ => throw (.fail "scc: grab: empty stack")

def loop (dfs : Args K → Calling (List (Component K))) (args : Args K) : List K → NograbFate K
  | tn :: tnl, (npre, theMap), stack, sccl =>
      match theMap.get tn with
      | some numbers => do
          let tl ← deref numbers.low
          if tl < (← deref args.nodeLow) ∧ stack.any (eq tn) = true then assign args.nodeLow tl
          loop dfs args tnl (npre, theMap) stack sccl
      | none => do
          let tnPre := npre
          let tnLow ← ref npre
          let theMap := theMap.set tn ⟨tnPre, tnLow⟩
          let tnNograbFate := loop dfs args tnl
          dfs {
            followNodes := follow tn
            grabFate := grab follow tn tnNograbFate
            nodePre := tnPre
            nodeLow := tnLow
            parentLow := args.nodeLow
            nodemap := (npre + 1, theMap)
            stack := tn :: stack
            sccl
            nograbFate := tnNograbFate }
  | [], nodemap, stack, sccl => do
      let nl ← deref args.nodeLow
      if nl = args.nodePre then args.grabFate nodemap sccl stack []
      else
        if nl < (← deref args.parentLow) then assign args.parentLow nl
        args.nograbFate nodemap stack sccl

def dfs : Nat → Args K → Calling (List (Component K))
  | 0, _ => throw .unfinished
  | fuel + 1, args =>
      loop follow (dfs fuel) args args.followNodes.reverse args.nodemap args.stack args.sccl

def topGrabFate : GrabFate K
  | _, sccl, [], [] => return sccl
  | _, _, _, _ => throw (.fail "scc: top_grab: stack not empty")

/-- The two cells are the low numbers of the virtual root and of its virtual parent. -/
def topologicalOrder' (fuel : Nat) (roots : List K) : Except Raised (List (Component K)) :=
  (outcome (dfs follow fuel {
    followNodes := roots
    grabFate := topGrabFate
    nodePre := 0
    nodeLow := 0
    parentLow := 1
    nodemap := (1, empty)
    stack := []
    sccl := []
    nograbFate := fun _ _ _ => throw (.fail "scc: top_nograb_fate") }) [0, 0]).1

def topologicalOrder (fuel : Nat) (root : K) : Except Raised (List (Component K)) :=
  topologicalOrder' follow fuel [root]

end Operations

/-!
# The search that the fates make

A call of `dfs` continues with its fate, after the steps of a search that enters a node, follows its
edges and leaves it.
-/

open StronglyConnected

variable {K : Type} [LinearOrder K] (follow : K → List K)

theorem eq_iff (x y : K) : eq x y = true ↔ x = y := by
  unfold eq
  rw [beq_iff_eq, compare_eq_iff_eq]

theorem any_eq (x : K) (xs : List K) : xs.any (eq x) = true ↔ x ∈ xs := by
  simp [List.any_eq_true, eq_iff]

def make : List K → Component K
  | [] => .recursive []
  | x :: xl => component follow x xl

structure Shows (s : Search K) (theMap : Map K Numbers) (cells : List Nat) : Prop where
  valid : theMap.Valid
  length : cells.length = s.next + 1
  fresh : ∀ x, x ∉ s.met → theMap.get x = none
  made : ∀ x ∈ s.met, ∃ numbers, theMap.get x = some numbers ∧ numbers.low < cells.length
  numbers : ∀ x ∈ s.stack, theMap.get x = some ⟨s.num x, s.num x + 1⟩
  lows : ∀ x ∈ s.stack, cells[s.num x + 1]? = some (s.low x)
  root : cells[0]? = some 0

section Cells

variable {follow} {roots path : List K} {todo : K → K → Prop} {s s' s'' : Search K}
  {theMap : Map K Numbers} {cells : List Nat} {v w : K}

theorem outcome_deref {r : RefCell} {n : Nat} (found : cells[r]? = some n) :
    outcome (deref r) cells = (.ok n, cells) := by
  simp only [deref, outcome_bind, outcome_get, found]
  rfl

theorem Shows.push (shown : Shows s theMap cells) (fresh : w ∉ s.met)
    (num_lt : ∀ x ∈ s.stack, s.num x < s.next) :
    Shows (s.push w) (theMap.set w ⟨s.next, s.next + 1⟩) (cells ++ [s.next]) := by
  have other {x : K} (mem : x ∈ s.met) : x ≠ w := ne_of_mem_of_not_mem mem fresh
  have onStack {x : K} (mem : x ∈ s.stack) : x ∈ s.met := Search.mem_met.mpr (.inl mem)
  constructor
  case valid => exact shown.valid.set w _
  case length =>
    rw [List.length_append, shown.length]
    rfl
  case fresh =>
    intro x absent
    have neither := not_or.mp (mt List.mem_cons.mpr absent)
    rw [get_set shown.valid, if_neg neither.1]
    exact shown.fresh x neither.2
  case made =>
    intro x mem
    rw [get_set shown.valid, List.length_append, shown.length]
    rcases List.mem_cons.mp mem with rfl | mem
    · rw [if_pos rfl]
      exact ⟨_, rfl, Nat.lt_succ_self _⟩
    · rw [if_neg (other mem)]
      obtain ⟨numbers, found, less⟩ := shown.made x mem
      rw [shown.length] at less
      exact ⟨numbers, found, Nat.lt_succ_of_lt less⟩
  case numbers =>
    intro x mem
    rw [get_set shown.valid]
    rcases List.mem_cons.mp mem with rfl | mem
    · rw [if_pos rfl, Search.push_num_self]
    · rw [if_neg (other (onStack mem)), Search.push_num_of_ne (other (onStack mem))]
      exact shown.numbers x mem
  case lows =>
    intro x mem
    rcases List.mem_cons.mp mem with rfl | mem
    · rw [Search.push_num_self, Search.push_low_self, ← shown.length]
      exact List.getElem?_concat_length
    · rw [Search.push_num_of_ne (other (onStack mem)), Search.push_low_of_ne (other (onStack mem)),
        List.getElem?_append_left]
      · exact shown.lows x mem
      · rw [shown.length]
        exact Nat.succ_lt_succ (num_lt x mem)
  case root =>
    rw [List.getElem?_append_left]
    · exact shown.root
    · rw [shown.length]
      exact Nat.succ_pos _

theorem Shows.lower (shown : Shows s theMap cells) (inv : Invariant follow roots path todo s)
    (mem : v ∈ s.stack) (n : Nat) : Shows (s.lower v n) theMap (cells.set (s.num v + 1) n) := by
  constructor
  case valid => exact shown.valid
  case length => rw [List.length_set, shown.length, Search.lower]
  case fresh => exact shown.fresh
  case made =>
    rw [List.length_set]
    exact shown.made
  case numbers => exact shown.numbers
  case lows =>
    intro x memX
    change (cells.set (s.num v + 1) n)[s.num x + 1]? = _
    by_cases same : x = v
    · rw [same, Search.lower_self, List.getElem?_set_self]
      rw [shown.length]
      exact Nat.succ_lt_succ (inv.num_lt v mem)
    · rw [Search.lower_of_ne same, List.getElem?_set_ne]
      · exact shown.lows x memX
      · intro equal
        exact same (inv.num_inj memX mem (Nat.succ.inj equal).symm)
  case root =>
    rw [List.getElem?_set_ne (Nat.succ_ne_zero _)]
    exact shown.root

theorem Shows.grab (shown : Shows s theMap cells) {above below : List K}
    (stack : s.stack = above ++ v :: below) : Shows (s.grab v above below) theMap cells := by
  have met := Search.met_grab stack
  have inside : ∀ x ∈ below, x ∈ s.stack := by
    intro x mem
    rw [stack]
    exact List.mem_append_right _ (List.mem_cons_of_mem _ mem)
  constructor
  case valid => exact shown.valid
  case length => exact shown.length
  case fresh =>
    intro x absent
    exact shown.fresh x fun mem => absent (met.mem_iff.mpr mem)
  case made => exact fun x mem => shown.made x (met.mem_iff.mp mem)
  case numbers => exact fun x mem => shown.numbers x (inside x mem)
  case lows => exact fun x mem => shown.lows x (inside x mem)
  case root => exact shown.root

end Cells

theorem grab_eq (tn : K) (fate : NograbFate K) (nodemap : Nodemap K) (sccl : List (Component K))
    (above below scc : List K) (absent : tn ∉ above) :
    grab follow tn fate nodemap sccl (above ++ tn :: below) scc =
      fate nodemap below (component follow tn (above.reverse ++ scc) :: sccl) := by
  induction above generalizing scc with
  | nil =>
    rw [List.nil_append, grab, if_pos ((eq_iff ..).mpr rfl)]
    rfl
  | cons top above ih =>
    have other := not_or.mp (mt List.mem_cons.mpr absent)
    rw [List.cons_append, grab, if_neg, ih _ other.2, List.reverse_cons, List.append_assoc]
    · rfl
    · rw [eq_iff]
      exact other.1

def Continues (follow : K → List K) (roots path : List K) (todo : K → K → Prop) (s : Search K)
    (m : Calling (List (Component K))) (cells : List Nat) (fate : NograbFate K) : Prop :=
  ∃ s' theMap' cells',
    outcome m cells = outcome (fate (s'.next, theMap') s'.stack (s'.done.map (make follow))) cells' ∧
    Invariant follow roots path todo s' ∧ Shows s' theMap' cells' ∧ After s s'

def searchArgs (follow : K → List K) (v : K) (parentLow : RefCell) (s : Search K)
    (theMap : Map K Numbers) (fate : NograbFate K) : Args K where
  followNodes := follow v
  grabFate := grab follow v fate
  nodePre := s.num v
  nodeLow := s.num v + 1
  parentLow := parentLow
  nodemap := (s.next, theMap)
  stack := s.stack
  sccl := s.done.map (make follow)
  nograbFate := fate

section Search

variable {follow} {roots path : List K} {todo : K → K → Prop} {s : Search K}
  {theMap : Map K Numbers} {cells : List Nat} {v w : K} {rest : List K} {todo' : K → K → Prop}
  {dfs' : Args K → Calling (List (Component K))} {args : Args K} {fate : NograbFate K}

theorem loop_nil (inv : Invariant follow roots (v :: path) (more v [] todo) s)
    (of_todo : ∀ x y, todo x y → x ∈ path) (shown : Shows s theMap cells)
    (nodePre : args.nodePre = s.num v) (nodeLow : args.nodeLow = s.num v + 1)
    (parentLow : ∀ g path', path = g :: path' → args.parentLow = s.num g + 1)
    (grabFate : args.grabFate = grab follow v fate) (nograbFate : args.nograbFate = fate) :
    Continues follow roots path todo s
      (loop follow dfs' args [] (s.next, theMap) s.stack (s.done.map (make follow))) cells fate := by
  have memV := inv.entered v (List.mem_cons_self ..)
  have low := outcome_deref (shown.lows v memV)
  by_cases root : s.low v = s.num v
  · obtain ⟨above, below, stack⟩ := List.append_of_mem memV
    have absent : v ∉ above := by
      have nodup := (List.nodup_append.mp inv.nodup).1
      rw [stack] at nodup
      exact fun mem => List.disjoint_of_nodup_append nodup mem (List.mem_cons_self ..)
    refine ⟨s.grab v above below, theMap, cells, ?_, inv.grab of_todo root stack,
      shown.grab stack, .grab stack⟩
    rw [loop, outcome_bind, nodeLow, low]
    dsimp only
    rw [if_pos (root.trans nodePre.symm), grabFate, stack, grab_eq follow v fate _ _ above below []
      absent, List.append_nil]
    rfl
  · cases path with
    | nil => exact absurd inv.low_first root
    | cons g path =>
      have memG := inv.entered g (List.mem_cons_of_mem _ (List.mem_cons_self ..))
      have parent := outcome_deref (shown.lows g memG)
      rw [← parentLow g path rfl] at parent
      have left := inv.retire of_todo root
      have step : outcome (loop follow dfs' args [] (s.next, theMap) s.stack
          (s.done.map (make follow))) cells = outcome (do
            if s.low v < s.low g then assign args.parentLow (s.low v)
            fate (s.next, theMap) s.stack (s.done.map (make follow))) cells := by
        rw [loop, outcome_bind, nodeLow, low]
        dsimp only
        rw [if_neg (by rwa [nodePre]), outcome_bind, parent, nograbFate]
      rw [Continues, step]
      unfold Search.retire at left
      split at left
      · next less =>
          rw [if_pos less, parentLow g path rfl]
          exact ⟨s.lower g (s.low v), theMap, _, rfl, left, shown.lower inv memG (s.low v),
            .lower s g (s.low v)⟩
      · next less =>
          rw [if_neg less]
          exact ⟨s, theMap, cells, rfl, left, shown, .refl s⟩

def Searches (follow : K → List K) (roots : List K) (size n : Nat)
    (dfs' : Args K → Calling (List (Component K))) : Prop :=
  ∀ {path : List K} {todo : K → K → Prop} {s : Search K} {theMap : Map K Numbers}
    {cells : List Nat} {v : K} (parentLow : RefCell) (fate : NograbFate K),
    Invariant follow roots (v :: path) (more v (follow v) todo) s →
    (∀ x y, todo x y → x ∈ path) → Shows s theMap cells → size < s.met.length + n →
    (∀ g path', path = g :: path' → parentLow = s.num g + 1) →
    Continues follow roots path todo s (dfs' (searchArgs follow v parentLow s theMap fate)) cells
      fate

variable (rest) in
theorem loop_new {size n : Nat} (searches : Searches follow roots size n dfs')
    (inv : Invariant follow roots path todo s)
    (pushed : Invariant follow roots (w :: path) (more w (follow w) todo') (s.push w))
    (of_todo : ∀ x y, todo' x y → x ∈ path) (shown : Shows s theMap cells) (fresh : w ∉ s.met)
    (fuel : size < s.met.length + (n + 1))
    (nodeLow : ∀ g path', path = g :: path' → args.nodeLow = s.num g + 1) :
    Continues follow roots path todo' (s.push w)
      (loop follow dfs' args (w :: rest) (s.next, theMap) s.stack (s.done.map (make follow))) cells
      (loop follow dfs' args rest) := by
  have length : size < (s.push w).met.length + n := by
    rw [Nat.add_comm n, ← Nat.add_assoc] at fuel
    exact fuel
  have parentLow : ∀ g path', path = g :: path' → args.nodeLow = (s.push w).num g + 1 := by
    rintro g path' rfl
    have mem := Search.mem_met.mpr (.inl (inv.entered g (List.mem_cons_self ..)))
    rw [(After.push fresh).num g mem]
    exact nodeLow g path' rfl
  have searched := searches args.nodeLow (loop follow dfs' args rest) pushed of_todo
    (shown.push fresh inv.num_lt) length parentLow
  have step : outcome (loop follow dfs' args (w :: rest) (s.next, theMap) s.stack
      (s.done.map (make follow))) cells =
      outcome (dfs' (searchArgs follow w args.nodeLow (s.push w)
        (theMap.set w ⟨s.next, s.next + 1⟩) (loop follow dfs' args rest))) (cells ++ [s.next]) := by
    have cell : outcome (ref s.next) cells = (.ok (s.next + 1), cells ++ [s.next]) := by
      rw [← shown.length]
      rfl
    rw [loop, shown.fresh w fresh]
    rw [outcome_bind, cell, searchArgs, Search.push_num_self]
    rfl
  rw [Continues, step]
  exact searched

theorem Continues.before {s' : Search K} {m : Calling (List (Component K))}
    (continues : Continues follow roots path todo s' m cells fate) (after : After s s') :
    Continues follow roots path todo s m cells fate := by
  obtain ⟨s2, theMap2, cells2, result, inv, shown, after2⟩ := continues
  exact ⟨s2, theMap2, cells2, result, inv, shown, after.trans after2⟩

theorem Continues.trans {path' : List K} {m : Calling (List (Component K))} {k k' : NograbFate K}
    (first : Continues follow roots path todo s m cells k)
    (second : ∀ s' theMap' cells', Invariant follow roots path todo s' → Shows s' theMap' cells' →
      After s s' → Continues follow roots path' todo' s'
        (k (s'.next, theMap') s'.stack (s'.done.map (make follow))) cells' k') :
    Continues follow roots path' todo' s m cells k' := by
  obtain ⟨s', theMap', cells', result, inv, shown, after⟩ := first
  obtain ⟨s2, theMap2, cells2, result2, inv2, shown2, after2⟩ :=
    second s' theMap' cells' inv shown after
  exact ⟨s2, theMap2, cells2, result.trans result2, inv2, shown2, after.trans after2⟩

variable (args) in
theorem loop_edges {size n : Nat} (searches : Searches follow roots size n dfs')
    (inv : Invariant follow roots (v :: path) (more v rest todo) s)
    (edges : ∀ w ∈ rest, w ∈ follow v) (of_todo : ∀ x y, todo x y → x ∈ path)
    (shown : Shows s theMap cells) (fuel : size < s.met.length + (n + 1))
    (nodeLow : args.nodeLow = s.num v + 1) : Continues follow roots (v :: path) (more v [] todo) s
      (loop follow dfs' args rest (s.next, theMap) s.stack (s.done.map (make follow))) cells
      (loop follow dfs' args []) := by
  induction rest generalizing s theMap cells with
  | nil => exact ⟨s, theMap, cells, rfl, inv, shown, .refl s⟩
  | cons w rest ih =>
    have memV := inv.entered v (List.mem_cons_self ..)
    have metV := Search.mem_met.mpr (.inl memV)
    obtain ⟨edge, edges⟩ := List.forall_mem_cons.mp edges
    by_cases met : w ∈ s.met
    · -- Only a node on the stack can have changed the low number.
      obtain ⟨numbers, found, inside⟩ := shown.made w met
      have lowW := outcome_deref (List.getElem?_eq_getElem inside)
      have lowV := outcome_deref (shown.lows v memV)
      have step : outcome (loop follow dfs' args (w :: rest) (s.next, theMap) s.stack
          (s.done.map (make follow))) cells = outcome (do
            if cells[numbers.low] < s.low v ∧ s.stack.any (eq w) = true then
              assign args.nodeLow cells[numbers.low]
            loop follow dfs' args rest (s.next, theMap) s.stack (s.done.map (make follow)))
          cells := by
        rw [loop, found]
        rw [outcome_bind, lowW, nodeLow]
        dsimp only
        rw [outcome_bind, lowV]
      have value (mem : w ∈ s.stack) : cells[numbers.low] = s.low w := by
        cases found.symm.trans (shown.numbers w mem)
        have low := shown.lows w mem
        rw [List.getElem?_eq_getElem inside] at low
        exact Option.some.inj low
      have same : (cells[numbers.low] < s.low v ∧ s.stack.any (eq w) = true) ↔
          (s.low w < s.low v ∧ w ∈ s.stack) := by
        rw [any_eq]
        exact and_congr_left fun mem => by rw [value mem]
      have meets := inv.meet (List.mem_cons_self ..) edge met
      rw [Continues, step]
      unfold Search.meet at meets
      split at meets
      · next both =>
          rw [if_pos (same.mpr both), value both.2, nodeLow]
          have rest := ih meets edges (shown.lower inv memV (s.low w)) fuel nodeLow
          exact rest.before (.lower s v (s.low w))
      · next neither =>
          rw [if_neg (mt same.mp neither)]
          exact ih meets edges shown fuel nodeLow
    · have reaches : ∀ x ∈ s.stack, Reaches follow x w := fun x mem =>
        (inv.reaches_top mem).tail edge
      obtain ⟨r, memR, reachR⟩ := inv.reached v metV
      have pushed := inv.push met ⟨r, memR, reachR.tail edge⟩ reaches
      have low : (s.push w).low v ≤ (s.push w).num w := by
        have order := (inv.low_le v memV).trans_lt (inv.num_lt v memV)
        rw [Search.push_low_of_ne (ne_of_mem_of_not_mem metV met), Search.push_num_self]
        exact Nat.le_of_lt order
      rw [more_comm] at pushed
      have consumed := pushed.consume (List.mem_cons_of_mem _ (List.mem_cons_self ..))
        (List.mem_cons_self ..) fun _ => low
      rw [more_comm] at consumed
      have nodeLow' : ∀ g path', v :: path = g :: path' → args.nodeLow = s.num g + 1 := by
        rintro g path' equal
        cases equal
        exact nodeLow
      have of_todo' : ∀ x y, more v rest todo x y → x ∈ v :: path := by
        rintro x y (⟨rfl, -⟩ | pending)
        · exact List.mem_cons_self ..
        · exact List.mem_cons_of_mem _ (of_todo x y pending)
      have searched := loop_new rest searches inv consumed of_todo' shown met fuel nodeLow'
      apply (searched.before (.push met)).trans
      intro s' theMap' cells' inv' shown' after
      apply ih inv' edges shown' (fuel.trans_le (Nat.add_le_add_right after.length _))
      rw [after.num v metV]
      exact nodeLow

theorem searches_dfs {all : Finset K} (inside : ∀ x, (∃ r ∈ roots, Reaches follow r x) → x ∈ all)
    (n : Nat) : Searches follow roots all.card n (dfs follow n) := by
  induction n with
  | zero =>
    intro path todo s theMap cells v parentLow fate inv of_todo shown fuel parent
    have bound : s.met.length ≤ all.card := by
      rw [← List.toFinset_card_of_nodup inv.nodup]
      apply Finset.card_le_card
      intro x mem
      exact inside x (inv.reached x (List.mem_toFinset.mp mem))
    exact absurd fuel (Nat.not_lt.mpr bound)
  | succ n ih =>
    intro path todo s theMap cells v parentLow fate inv of_todo shown fuel parent
    have metV := Search.mem_met.mpr (.inl (inv.entered v (List.mem_cons_self ..)))
    rw [← more_reverse] at inv
    have edges := loop_edges (searchArgs follow v parentLow s theMap fate) ih inv
      (fun w mem => List.mem_reverse.mp mem) of_todo shown fuel rfl
    apply edges.trans
    intro s' theMap' cells' inv' shown' after
    have same := after.num v metV
    apply loop_nil inv' of_todo shown' same.symm
    · rw [same]
      rfl
    · rintro g path' rfl
      have mem := inv.entered g (List.mem_cons_of_mem _ (List.mem_cons_self ..))
      rw [after.num g (Search.mem_met.mpr (.inl mem))]
      exact parent g path' rfl
    · rfl
    · rfl

end Search

/-! # The components are right -/

def rootArgs (roots : List K) : Args K where
  followNodes := roots
  grabFate := topGrabFate
  nodePre := 0
  nodeLow := 0
  parentLow := 1
  nodemap := (1, empty)
  stack := []
  sccl := []
  nograbFate := fun _ _ _ => throw (.fail "scc: top_nograb_fate")

def Extends {A : Type} (m m' : Calling A) : Prop :=
  ∀ cells, (outcome m cells).1 = .error .unfinished ∨ outcome m' cells = outcome m cells

def FateExtends (fate fate' : NograbFate K) : Prop :=
  ∀ nodemap stack sccl, Extends (fate nodemap stack sccl) (fate' nodemap stack sccl)

def ArgsExtend (args args' : Args K) : Prop :=
  ∃ grabFate nograbFate, args' = { args with grabFate, nograbFate } ∧
    (∀ nodemap sccl stack scc, Extends (args.grabFate nodemap sccl stack scc)
      (grabFate nodemap sccl stack scc)) ∧ FateExtends args.nograbFate nograbFate

def DfsExtends (dfs' dfs'' : Args K → Calling (List (Component K))) : Prop :=
  ∀ args args', ArgsExtend args args' → Extends (dfs' args) (dfs'' args')

section Fuel

variable {follow : K → List K} {A B : Type} {dfs' dfs'' : Args K → Calling (List (Component K))}
  {args args' : Args K} {fate fate' : NograbFate K}

omit [LinearOrder K] in
theorem ArgsExtend.refl (args : Args K) : ArgsExtend args args :=
  ⟨_, _, rfl, fun _ _ _ _ _ => .inr rfl, fun _ _ _ _ => .inr rfl⟩

theorem Extends.refl (m : Calling A) : Extends m m := fun _ => .inr rfl

theorem Extends.bind (m : Calling A) {f f' : A → Calling B} (rest : ∀ a, Extends (f a) (f' a)) :
    Extends (m >>= f) (m >>= f') := by
  intro cells
  rw [outcome_bind, outcome_bind]
  rcases outcome m cells with ⟨e | a, cells'⟩
  · exact .inr rfl
  · exact rest a cells'

theorem grab_extends (tn : K) (extends' : FateExtends fate fate') (nodemap : Nodemap K)
    (sccl : List (Component K)) (stack scc : List K) :
    Extends (grab follow tn fate nodemap sccl stack scc)
      (grab follow tn fate' nodemap sccl stack scc) := by
  induction stack generalizing scc with
  | nil => exact .refl _
  | cons top stack ih =>
    rw [grab, grab]
    split
    · exact extends' _ _ _
    · exact ih _

theorem loop_extends (follow : K → List K) (dfsExtends : DfsExtends dfs' dfs'')
    (argsExtend : ArgsExtend args args') (rest : List K) :
    FateExtends (loop follow dfs' args rest) (loop follow dfs'' args' rest) := by
  obtain ⟨grabFate, nograbFate, rfl, grabExtends, nograbExtends⟩ := argsExtend
  induction rest with
  | nil =>
    intro nodemap stack sccl
    apply Extends.bind
    intro nl
    split
    · exact grabExtends _ _ _ _
    · apply Extends.bind
      intro parent
      split
      · apply Extends.bind
        intro _
        exact nograbExtends _ _ _
      · exact nograbExtends _ _ _
  | cons tn rest ih =>
    rintro ⟨npre, theMap⟩ stack sccl
    rw [loop, loop]
    split
    · apply Extends.bind
      intro tl
      apply Extends.bind
      intro low
      split
      · apply Extends.bind
        intro _
        exact ih _ _ _
      · exact ih _ _ _
    · apply Extends.bind
      intro tnLow
      apply dfsExtends
      exact ⟨_, _, rfl, grab_extends tn ih, ih⟩

theorem dfs_extends (follow : K → List K) (n : Nat) :
    DfsExtends (dfs follow n) (dfs follow (n + 1)) := by
  induction n with
  | zero =>
    intro args args' argsExtend cells
    exact .inl rfl
  | succ n ih =>
    intro args args' argsExtend
    have extended := loop_extends follow ih argsExtend
    obtain ⟨grabFate, nograbFate, rfl, -⟩ := argsExtend
    exact extended _ _ _ _

theorem topologicalOrder'_mono (roots : List K) {components : List (Component K)} {n m : Nat}
    (le : n ≤ m) (result : topologicalOrder' follow n roots = .ok components) :
    topologicalOrder' follow m roots = .ok components := by
  induction le with
  | refl => exact result
  | @step m le ih =>
    have same := dfs_extends follow m (rootArgs roots) (rootArgs roots) (.refl _) [0, 0]
    rcases same with unfinished | same
    · exact nomatch unfinished.symm.trans ih
    · exact (congrArg Prod.fst same).trans ih

end Fuel

section Result

variable {follow : K → List K} {roots : List K} {s : Search K} {theMap : Map K Numbers} {cells : List Nat}
  {dfs' : Args K → Calling (List (Component K))}

abbrev Between (follow : K → List K) (roots : List K) : Search K → Prop :=
  Invariant follow roots [] fun _ _ => False

theorem loop_roots {size n : Nat} (searches : Searches follow roots size n dfs')
    (rest : List K) (inv : Between follow roots s) (inside : ∀ r ∈ rest, r ∈ roots)
    (shown : Shows s theMap cells) (fuel : size < s.met.length + (n + 1)) :
    ∃ s', (outcome (loop follow dfs' (rootArgs roots) rest (s.next, theMap) s.stack
        (s.done.map (make follow))) cells).1 = .ok (s'.done.map (make follow)) ∧
      Between follow roots s' ∧ (∀ x ∈ s.met, x ∈ s'.met) ∧ ∀ r ∈ rest, r ∈ s'.met := by
  induction rest generalizing s theMap cells with
  | nil =>
    refine ⟨s, ?_, inv, fun _ mem => mem, by simp⟩
    have low : outcome (deref (rootArgs roots).nodeLow) cells = (.ok 0, cells) :=
      outcome_deref shown.root
    rw [loop, outcome_bind, low, inv.stack_empty]
    rfl
  | cons r rest ih =>
    obtain ⟨root, inside⟩ := List.forall_mem_cons.mp inside
    by_cases met : r ∈ s.met
    · -- No number is below the low number of the virtual root.
      obtain ⟨numbers, found, less⟩ := shown.made r met
      have low := outcome_deref (List.getElem?_eq_getElem less)
      have step : outcome (loop follow dfs' (rootArgs roots) (r :: rest) (s.next, theMap) s.stack
          (s.done.map (make follow))) cells = outcome (loop follow dfs' (rootArgs roots) rest
            (s.next, theMap) s.stack (s.done.map (make follow))) cells := by
        have zero : outcome (deref (rootArgs roots).nodeLow) cells = (.ok 0, cells) :=
          outcome_deref shown.root
        rw [loop, found]
        rw [outcome_bind, low]
        dsimp only
        rw [outcome_bind, zero]
        dsimp only
        rw [if_neg (fun both => Nat.not_lt_zero _ both.1)]
      rw [step]
      obtain ⟨s', result, inv', kept, all⟩ := ih inv inside shown fuel
      refine ⟨s', result, inv', kept, ?_⟩
      exact List.forall_mem_cons.mpr ⟨kept r met, all⟩
    · have stack : ∀ x ∈ s.stack, Reaches follow x r := by
        rw [inv.stack_empty]
        simp
      have pushed := inv.push met ⟨r, root, .refl⟩ stack
      obtain ⟨s1, theMap1, cells1, searched, inv1, shown1, after⟩ := loop_new rest searches inv
        pushed (fun x y pending => pending.elim) shown met fuel (fun g path' equal => nomatch equal)
      have grows := (After.push met).trans after
      obtain ⟨s', result, inv', kept, all⟩ :=
        ih inv1 inside shown1 (fuel.trans_le (Nat.add_le_add_right grows.length _))
      refine ⟨s', ?_, inv', fun x mem => kept x (grows.met x mem), ?_⟩
      · rw [searched]
        exact result
      · exact List.forall_mem_cons.mpr ⟨kept r (after.met r (List.mem_cons_self ..)), all⟩

def Component.nodes : Component K → List K
  | .simple node => [node]
  | .recursive nodes => nodes

theorem nodes_make {c : List K} (nonempty : c ≠ []) : (make follow c).nodes = c := by
  match c with
  | [x] =>
    change Component.nodes (if (follow x).any (eq x) then .recursive [x] else .simple x) = [x]
    split <;> rfl
  | x :: y :: xl => rfl

theorem make_eq_simple {c : List K} (nonempty : c ≠ []) (nodup : c.Nodup) (x : K) :
    make follow c = .simple x ↔ (∀ y, y ∈ c ↔ y = x) ∧ x ∉ follow x := by
  match c with
  | [z] =>
    change (if (follow z).any (eq z) then Component.recursive [z] else .simple z) = _ ↔ _
    constructor
    · intro equal
      split at equal
      · cases equal
      · next loopless =>
          cases equal
          exact ⟨fun y => List.mem_singleton, mt (any_eq ..).mpr loopless⟩
    · rintro ⟨only, loopless⟩
      cases (only z).mp (List.mem_singleton.mpr rfl)
      exact if_neg (mt (any_eq ..).mp loopless)
  | y :: z :: zl =>
    constructor
    · intro equal
      cases equal
    · rintro ⟨only, -⟩
      have first := (only y).mp (List.mem_cons_self ..)
      have second := (only z).mp (List.mem_cons_of_mem _ (List.mem_cons_self ..))
      rw [first, second] at nodup
      exact absurd (List.mem_cons_self ..) (List.nodup_cons.mp nodup).1

structure TopologicalOrder (follow : K → List K) (roots : List K)
    (components : List (Component K)) : Prop where
  nodup : (components.flatMap Component.nodes).Nodup
  reached (x : K) : x ∈ components.flatMap Component.nodes ↔ ∃ r ∈ roots, Reaches follow r x
  nonempty : ∀ c ∈ components, c.nodes ≠ []
  component : ∀ c ∈ components, ∀ x ∈ c.nodes, ∀ y,
    y ∈ c.nodes ↔ Reaches follow x y ∧ Reaches follow y x
  simple : ∀ c ∈ components, ∀ x,
    c = .simple x ↔ (∀ y, y ∈ c.nodes ↔ y = x) ∧ x ∉ follow x
  order : components.Pairwise fun c c' => ∀ x ∈ c'.nodes, ∀ y ∈ follow x, y ∉ c.nodes

theorem between_start (follow : K → List K) (roots : List K) :
    let s : Search K := ⟨fun _ => 0, fun _ => 0, 1, [], []⟩
    Between follow roots s ∧ Shows s empty [0, 0] := by
  refine ⟨.start follow roots _ _ _, ?_⟩
  constructor
  case valid => exact .empty
  case length => rfl
  case fresh => exact fun x absent => rfl
  case made => exact fun x mem => absurd mem List.not_mem_nil
  case numbers => exact fun x mem => absurd mem List.not_mem_nil
  case lows => exact fun x mem => absurd mem List.not_mem_nil
  case root => rfl

theorem topologicalOrder'_ends (follow : K → List K) (roots : List K)
    (finite : Set.Finite { x | ∃ r ∈ roots, Reaches follow r x }) :
    ∃ components, topologicalOrder' follow (finite.toFinset.card + 1) roots = .ok components ∧
      TopologicalOrder follow roots components := by
  obtain ⟨inv, shown⟩ := between_start follow roots
  have searches : Searches follow roots finite.toFinset.card _ _ :=
    searches_dfs (fun x reached => finite.mem_toFinset.mpr reached) finite.toFinset.card
  have fuel : finite.toFinset.card < 0 + (finite.toFinset.card + 1) := by simp
  obtain ⟨s, result, inv', -, all⟩ := loop_roots searches roots.reverse inv
    (fun r mem => List.mem_reverse.mp mem) shown fuel
  have met : ∀ r ∈ roots, r ∈ s.met := fun r mem => all r (List.mem_reverse.mpr mem)
  refine ⟨s.done.map (make follow), result, ?_⟩
  have nonempty : ∀ c ∈ s.done, c ≠ [] := fun c mem => (inv'.component c mem).1
  have nodes : ∀ c ∈ s.done, (make follow c).nodes = c := fun c mem => nodes_make (nonempty c mem)
  have all : (s.done.map (make follow)).flatMap Component.nodes = s.done.flatten := by
    rw [List.flatMap_map, List.flatMap_def, List.map_congr_left nodes, List.map_id']
  have nodup := (List.nodup_append.mp inv'.nodup).2.1
  constructor
  case nodup => rwa [all]
  case reached =>
    rw [all]
    exact inv'.mem_done met
  case nonempty =>
    intro c inside
    obtain ⟨c, mem, rfl⟩ := List.mem_map.mp inside
    rw [nodes c mem]
    exact nonempty c mem
  case component =>
    intro c inside
    obtain ⟨c, mem, rfl⟩ := List.mem_map.mp inside
    rw [nodes c mem]
    exact (inv'.component c mem).2
  case simple =>
    intro c inside
    obtain ⟨c, mem, rfl⟩ := List.mem_map.mp inside
    rw [nodes c mem]
    exact make_eq_simple (nonempty c mem) ((List.nodup_flatten.mp nodup).1 c mem)
  case order =>
    apply List.pairwise_map.mpr
    apply inv'.order.imp_of_mem
    intro c c' mem mem' apart
    rw [nodes c mem, nodes c' mem']
    exact apart

theorem topologicalOrder'_correct (follow : K → List K) (roots : List K)
    (finite : Set.Finite { x | ∃ r ∈ roots, Reaches follow r x }) :
    ∃ components, (∃ enough, ∀ fuel, enough ≤ fuel →
        topologicalOrder' follow fuel roots = .ok components) ∧
      TopologicalOrder follow roots components := by
  obtain ⟨components, result, order⟩ := topologicalOrder'_ends follow roots finite
  exact ⟨components, ⟨_, fun fuel le => topologicalOrder'_mono roots le result⟩, order⟩

theorem topologicalOrder'_three :
    let follow : Nat → List Nat := fun n => [[], [2], [1, 3], [3]].getD n []
    ∃ components, (∃ enough, ∀ fuel, enough ≤ fuel →
        topologicalOrder' follow fuel [1, 4] = .ok components) ∧
      TopologicalOrder follow [1, 4] components := by
  intro follow
  apply topologicalOrder'_correct follow [1, 4]
  apply Set.Finite.subset (Set.finite_le_nat 4)
  rintro x ⟨r, mem, reach⟩
  have closed : ∀ x, x ≤ 4 → ∀ y ∈ follow x, y ≤ 4 := by
    decide
  have start : ∀ r ∈ [1, 4], r ≤ 4 := by decide
  exact mem_of_reaches closed (start r mem) reach

end Result

end Mythryl.DigraphStronglyConnectedComponents
