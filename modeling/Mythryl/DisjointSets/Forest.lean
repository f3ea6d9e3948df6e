import Mathlib.Logic.Relation
import Mathlib.Order.Nat
import Mathlib.Tactic.Common

/-!
# Disjoint sets

`disjoint_sets_with_constant_time_union`: a cell holds the value of its set and a rank, or points to
another cell of the set.
-/

namespace Mythryl.DisjointSets

/-- `MATCH`, a cell that does not exist, or a chase that has not come to an end. -/
inductive Raised
  | noMatch | dangling | unfinished
  deriving DecidableEq, Repr

abbrev Cell := Nat

/-- `Disjoint_Set_C`. Each step of a rank takes twice as many cells, so ranks cannot overflow. -/
inductive Content (X : Type)
  | ecr (x : X) (rank : Nat)
  | ptr (p : Cell)
  deriving DecidableEq, Repr

abbrev Heap (X : Type) := List (Content X)

abbrev Calling (X : Type) := StateT (Heap X) (Except Raised)

section Operations

variable {X : Type}

def deref (p : Cell) : Calling X (Content X) := do
  match (← get)[p]? with
  | some c => return c
  | none => throw .dangling

def assign (p : Cell) (c : Content X) : Calling X Unit := modify fun heap => heap.set p c

def chase : Nat → Cell → Calling X Cell
  | 0, _ => throw .unfinished
  | fuel + 1, p => do
      match ← deref p with
      | .ecr _ _ => return p
      | .ptr p' => do
          let p'' ← chase fuel p'
          assign p (.ptr p'')
          return p''

def makeSingletonDisjointSet (x : X) : Calling X Cell := do
  let heap ← get
  set (heap ++ [.ecr x 0])
  return heap.length

def getValue (fuel : Nat) (p : Cell) : Calling X X := do
  let p' ← chase fuel p
  match ← deref p' with
  | .ecr x _ => return x
  | _ => throw .noMatch

def equal (fuel : Nat) (p p' : Cell) : Calling X Bool := do
  let r ← chase fuel p
  let r' ← chase fuel p'
  return r = r'

def setValue (fuel : Nat) (p : Cell) (x : X) : Calling X Unit := do
  let p' ← chase fuel p
  match ← deref p' with
  | .ecr _ r => assign p' (.ecr x r)
  | _ => throw .noMatch

def link (fuel : Nat) (p q : Cell) : Calling X Bool := do
  let p' ← chase fuel p
  let q' ← chase fuel q
  if p' = q' then return false
  else do
    assign p' (.ptr q)
    return true

def unify (fuel : Nat) (f : X → X → X) (p q : Cell) : Calling X Bool := do
  let p' ← chase fuel p
  let q' ← chase fuel q
  match ← deref p', ← deref q' with
  | .ecr pc pr, .ecr qc qr => do
      let newC := f pc qc
      if p' = q' then do
        assign p' (.ecr newC pr)
        return false
      else do
        if pr = qr then do
          assign q' (.ecr newC (qr + 1))
          assign p' (.ptr q')
        else if pr < qr then do
          assign q' (.ecr newC qr)
          assign p' (.ptr q')
        else do
          assign p' (.ecr newC pr)
          assign q' (.ptr p')
        return true
  | _, _ => throw .noMatch

def union (fuel : Nat) (p q : Cell) : Calling X Bool := do
  let p' ← chase fuel p
  let q' ← chase fuel q
  if p' = q' then return false
  else
    match ← deref p', ← deref q' with
    | .ecr _ pr, .ecr qc qr => do
        if pr = qr then do
          assign q' (.ecr qc (qr + 1))
          assign p' (.ptr q')
        else if pr < qr then assign p' (.ptr q')
        else assign q' (.ptr p')
        return true
    | _, _ => throw .noMatch

end Operations

section Returns

variable {X α β : Type} {heap heap1 heap2 : Heap X} {a : α} {b : β}

def Returns (m : Nat → Calling X α) (heap : Heap X) (a : α) (heap' : Heap X) : Prop :=
  ∃ least, ∀ fuel ≥ least, (m fuel).run heap = .ok (a, heap')

theorem Returns.pure {a : α} : Returns (fun _ => pure a) heap a heap := ⟨0, fun _ _ => rfl⟩

theorem Returns.bind {m : Nat → Calling X α} {f : Nat → α → Calling X β}
    (first : Returns m heap a heap1) (second : Returns (fun fuel => f fuel a) heap1 b heap2) :
    Returns (fun fuel => m fuel >>= f fuel) heap b heap2 := by
  obtain ⟨least, first⟩ := first
  obtain ⟨least', second⟩ := second
  refine ⟨max least least', fun fuel enough => ?_⟩
  rw [StateT.run_bind, first fuel (Nat.max_le.mp enough).1]
  exact second fuel (Nat.max_le.mp enough).2

theorem Returns.succ {m : Nat → Calling X α} (returns : Returns (fun fuel => m (fuel + 1)) heap a heap1) :
    Returns m heap a heap1 := by
  obtain ⟨least, run⟩ := returns
  refine ⟨least + 1, fun fuel enough => ?_⟩
  obtain ⟨fuel, rfl⟩ := Nat.exists_eq_add_of_le' enough
  exact run (fuel + least) (Nat.le_add_left ..)

theorem Returns.deref {p : Cell} {c : Content X} (found : heap[p]? = some c) :
    Returns (fun _ => deref p) heap c heap := by
  refine ⟨0, fun _ _ => ?_⟩
  simp [DisjointSets.deref, found]
  rfl

theorem Returns.assign {p : Cell} {c : Content X} :
    Returns (fun _ => assign p c) heap () (heap.set p c) := ⟨0, fun _ _ => rfl⟩

end Returns

inductive Leads {X : Type} (heap : Heap X) : Cell → Cell → Prop
  | root {p : Cell} {x : X} {rank : Nat} (found : heap[p]? = some (.ecr x rank)) : Leads heap p p
  | step {p p' r : Cell} (found : heap[p]? = some (.ptr p')) (rest : Leads heap p' r) :
      Leads heap p r

section Leads

variable {X : Type} {heap heap' heap1 heap2 : Heap X} {p q r a b : Cell} {c : Content X}

theorem Leads.unique (leads : Leads heap p r) (leads' : Leads heap p q) : r = q := by
  induction leads with
  | root found =>
    cases leads' with
    | root => rfl
    | step found' => cases found.symm.trans found'
  | step found _ ih =>
    cases leads' with
    | root found' => cases found.symm.trans found'
    | step found' rest =>
      cases found.symm.trans found'
      exact ih rest

theorem Leads.ends (leads : Leads heap p r) : ∃ x k, heap[r]? = some (.ecr x k) := by
  induction leads with
  | root found => exact ⟨_, _, found⟩
  | step _ _ ih => exact ih

theorem Leads.self (leads : Leads heap p r) : Leads heap r r := by
  obtain ⟨x, k, found⟩ := leads.ends
  exact .root found

theorem Leads.bound (leads : Leads heap p r) : p < heap.length := by
  cases leads with
  | root found => exact (List.getElem?_eq_some_iff.mp found).1
  | step found => exact (List.getElem?_eq_some_iff.mp found).1

theorem Leads.set_of_root (leads : Leads heap p r) (root : Leads heap a a) (other : r ≠ a) :
    Leads (heap.set a c) p r := by
  obtain ⟨x, k, held⟩ := root.ends
  induction leads with
  | root found => exact .root (by rwa [List.getElem?_set_ne other.symm])
  | @step p p' r found _ ih =>
    have away : a ≠ p := by
      rintro rfl
      cases held.symm.trans found
    exact .step (by rwa [List.getElem?_set_ne away]) (ih other)

theorem Leads.set_ptr (leads : Leads heap p r) (after : Leads (heap.set a (.ptr q)) q b) :
    Leads (heap.set a (.ptr q)) p r ∨ Leads heap a r ∧ Leads (heap.set a (.ptr q)) p b := by
  have through (here : Leads heap a r) : Leads (heap.set a (.ptr q)) a b :=
    .step (List.getElem?_set_self here.bound) after
  induction leads with
  | @root p x k found =>
    by_cases same : p = a
    · subst same
      exact .inr ⟨.root found, through (.root found)⟩
    · exact .inl (.root (by rwa [List.getElem?_set_ne fun equal => same equal.symm]))
  | @step p p' r found rest ih =>
    by_cases same : p = a
    · subst same
      exact .inr ⟨.step found rest, through (.step found rest)⟩
    · have kept : (heap.set a (.ptr q))[p]? = some (.ptr p') := by
        rwa [List.getElem?_set_ne fun equal => same equal.symm]
      cases ih through with
      | inl unchanged => exact .inl (.step kept unchanged)
      | inr passed => exact .inr ⟨passed.1, .step kept passed.2⟩

end Leads

structure Compressed {X : Type} (heap heap' : Heap X) : Prop where
  length : heap'.length = heap.length
  leads : ∀ {p r : Cell}, Leads heap p r → Leads heap' p r
  held : ∀ {p : Cell} {x : X} {k : Nat},
    heap[p]? = some (.ecr x k) → heap'[p]? = some (.ecr x k)

section Compressed

variable {X : Type} {heap heap1 heap2 : Heap X} {p r : Cell}

theorem Compressed.refl : Compressed heap heap := ⟨rfl, id, id⟩

theorem Compressed.trans (first : Compressed heap heap1) (second : Compressed heap1 heap2) :
    Compressed heap heap2 :=
  ⟨second.length.trans first.length, second.leads ∘ first.leads, second.held ∘ first.held⟩

theorem compressed_set {p' : Cell} (points : heap[p]? = some (.ptr p')) (leads : Leads heap p r) :
    Compressed heap (heap.set p (.ptr r)) := by
  obtain ⟨x, k, held⟩ := leads.ends
  have other : p ≠ r := by
    rintro rfl
    cases points.symm.trans held
  have after : Leads (heap.set p (.ptr r)) r r := .root (by rwa [List.getElem?_set_ne other])
  refine ⟨List.length_set, ?_, ?_⟩
  · intro q s path
    cases path.set_ptr after with
    | inl unchanged => exact unchanged
    | inr passed =>
      cases passed.1.unique leads
      exact passed.2
  · intro q x k found
    have away : p ≠ q := by
      rintro rfl
      cases points.symm.trans found
    rwa [List.getElem?_set_ne away]

theorem chase_returns (leads : Leads heap p r) :
    ∃ heap', Returns (fun fuel => chase fuel p) heap r heap' ∧ Compressed heap heap' := by
  induction leads with
  | @root p x k found =>
    exact ⟨heap, .succ (.bind (.deref found) .pure), .refl⟩
  | @step p p' r found rest ih =>
    obtain ⟨heap1, chased, compressed⟩ := ih
    have leads1 : Leads heap1 p r := compressed.leads (.step found rest)
    have points : ∃ q, heap1[p]? = some (.ptr q) := by
      obtain ⟨x, k, held⟩ := rest.ends
      cases leads1 with
      | root => cases found.symm.trans held
      | step found' => exact ⟨_, found'⟩
    obtain ⟨q, points⟩ := points
    refine ⟨heap1.set p (.ptr r), ?_, compressed.trans (compressed_set points leads1)⟩
    exact .succ (.bind (.deref found) (.bind chased (.bind .assign .pure)))

end Compressed

/-! # The classes -/

section Related

variable {α : Type} {calls : List (α × α)} {a b c p q : α}

def Related (calls : List (α × α)) : α → α → Prop := Relation.EqvGen fun a b => (a, b) ∈ calls

theorem Related.refl : Related calls a a := Relation.EqvGen.refl a

theorem Related.symm (related : Related calls a b) : Related calls b a :=
  Relation.EqvGen.symm _ _ related

theorem Related.trans (first : Related calls a b) (second : Related calls b c) :
    Related calls a c := Relation.EqvGen.trans _ _ _ first second

theorem Related.push (related : Related calls a b) : Related ((p, q) :: calls) a b :=
  Relation.EqvGen.mono (fun _ _ mem => List.mem_cons_of_mem _ mem) _ _ related

theorem related_push : Related ((p, q) :: calls) p q := .rel _ _ List.mem_cons_self

theorem related_cons : Related ((p, q) :: calls) a b ↔
    Related calls a b ∨ Related calls a p ∧ Related calls q b ∨
      Related calls a q ∧ Related calls p b := by
  constructor
  · intro related
    induction related with
    | rel a b mem =>
      cases mem with
      | head => exact .inr (.inl ⟨.refl, .refl⟩)
      | tail _ mem => exact .inl (.rel _ _ mem)
    | refl a => exact .inl .refl
    | symm a b _ ih =>
      rcases ih with direct | ⟨first, second⟩ | ⟨first, second⟩
      · exact .inl direct.symm
      · exact .inr (.inr ⟨second.symm, first.symm⟩)
      · exact .inr (.inl ⟨second.symm, first.symm⟩)
    | trans a b c _ _ ih ih' =>
      rcases ih with direct | ⟨first, second⟩ | ⟨first, second⟩ <;>
        rcases ih' with direct' | ⟨first', second'⟩ | ⟨first', second'⟩
      · exact .inl (direct.trans direct')
      · exact .inr (.inl ⟨direct.trans first', second'⟩)
      · exact .inr (.inr ⟨direct.trans first', second'⟩)
      · exact .inr (.inl ⟨first, second.trans direct'⟩)
      · exact .inr (.inl ⟨first, second'⟩)
      · exact .inl (first.trans second')
      · exact .inr (.inr ⟨first, second.trans direct'⟩)
      · exact .inl (first.trans second')
      · exact .inr (.inr ⟨first, second'⟩)
  · intro joined
    have pair : Related ((p, q) :: calls) p q := related_push
    rcases joined with direct | ⟨first, second⟩ | ⟨first, second⟩
    · exact direct.push
    · exact first.push.trans (pair.trans second.push)
    · exact first.push.trans (pair.symm.trans second.push)

theorem related_swap : Related ((p, q) :: calls) a b ↔ Related ((q, p) :: calls) a b := by
  rw [related_cons, related_cons, or_comm (a := _ ∧ _)]

theorem related_joined (joined : Related calls p q) :
    Related ((p, q) :: calls) a b ↔ Related calls a b := by
  rw [related_cons]
  constructor
  · rintro (direct | ⟨first, second⟩ | ⟨first, second⟩)
    · exact direct
    · exact first.trans (joined.trans second)
    · exact first.trans (joined.symm.trans second)
  · exact Or.inl

end Related

/-- The cells that there are, the pairs of the merging calls so far, and the value of the class of
each cell. -/
structure Classes (X : Type) where
  cells : Nat
  calls : List (Cell × Cell)
  value : Cell → Option X

inductive Call (X : Type)
  | make (x : X)
  | get (p : Cell)
  | set (p : Cell) (x : X)
  | equal (p q : Cell)
  | link (p q : Cell)
  | union (p q : Cell)
  | unify (f : X → X → X) (p q : Cell)

inductive Reply (X : Type)
  | cell (p : Cell)
  | value (x : X)
  | void
  | bool (b : Bool)
  deriving DecidableEq, Repr

section Calls

variable {X : Type}

def Classes.empty : Classes X := ⟨0, [], fun _ => none⟩

open Classical in
noncomputable def Classes.assign (s : Classes X) (p : Cell) (x : Option X) : Classes X :=
  { s with value := fun r => if Related s.calls p r then x else s.value r }

open Classical in
noncomputable def Classes.merge (s : Classes X) (p q : Cell) (x : Option X) : Classes X where
  cells := s.cells
  calls := (p, q) :: s.calls
  value := fun r => if Related ((p, q) :: s.calls) p r then x else s.value r

section Values

variable {s : Classes X} {p q r : Cell} {x : Option X}

theorem Classes.assign_value (related : Related s.calls p r) : (s.assign p x).value r = x :=
  if_pos related

theorem Classes.assign_value_other (apart : ¬Related s.calls p r) :
    (s.assign p x).value r = s.value r := if_neg apart

theorem Classes.merge_value (related : Related ((p, q) :: s.calls) p r) :
    (s.merge p q x).value r = x := if_pos related

theorem Classes.merge_value_other (apart : ¬Related ((p, q) :: s.calls) p r) :
    (s.merge p q x).value r = s.value r := if_neg apart

theorem Classes.assign_merge (y : Option X) : (s.assign q y).merge p q x = s.merge p q x := by
  have values : ((s.assign q y).merge p q x).value = (s.merge p q x).value := by
    funext r
    by_cases joined : Related ((p, q) :: s.calls) p r
    · exact (if_pos joined).trans (if_pos joined).symm
    · have apart : ¬Related s.calls q r := fun related =>
        joined (related_push.trans related.push)
      exact (if_neg joined).trans ((Classes.assign_value_other apart).trans (if_neg joined).symm)
  exact congrArg (Classes.mk s.cells ((p, q) :: s.calls)) values

end Values

/-- What a call replies, and what it leaves of the classes. A merging call replies whether the
cells were in two classes; `link` keeps the value of the second, `union` one of the two. -/
def Classes.Step (s : Classes X) : Call X → Reply X → Classes X → Prop
  | .make x, reply, s' =>
      reply = .cell s.cells ∧ s' = ⟨s.cells + 1, s.calls, Function.update s.value s.cells (some x)⟩
  | .get p, reply, s' => ∃ x, s.value p = some x ∧ reply = .value x ∧ s' = s
  | .set p x, reply, s' => reply = .void ∧ s' = s.assign p (some x)
  | .equal p q, reply, s' => ∃ b, reply = .bool b ∧ (b = true ↔ Related s.calls p q) ∧ s' = s
  | .link p q, reply, s' =>
      ∃ b, reply = .bool b ∧ (b = true ↔ ¬Related s.calls p q) ∧ s' = s.merge p q (s.value q)
  | .union p q, reply, s' =>
      ∃ b x, reply = .bool b ∧ (b = true ↔ ¬Related s.calls p q) ∧
        (x = s.value p ∨ x = s.value q) ∧ s' = s.merge p q x
  | .unify f p q, reply, s' =>
      ∃ b x y, reply = .bool b ∧ (b = true ↔ ¬Related s.calls p q) ∧
        s.value p = some x ∧ s.value q = some y ∧ s' = s.merge p q (some (f x y))

def Call.cells : Call X → List Cell
  | .make _ => []
  | .get p | .set p _ => [p]
  | .equal p q | .link p q | .union p q | .unify _ p q => [p, q]

def perform (fuel : Nat) : Call X → Calling X (Reply X)
  | .make x => do return .cell (← makeSingletonDisjointSet x)
  | .get p => do return .value (← getValue fuel p)
  | .set p x => do
      setValue fuel p x
      return .void
  | .equal p q => do return .bool (← equal fuel p q)
  | .link p q => do return .bool (← link fuel p q)
  | .union p q => do return .bool (← union fuel p q)
  | .unify f p q => do return .bool (← unify fuel f p q)

def performAll (fuel : Nat) : List (Call X) → Calling X (List (Reply X))
  | [] => return []
  | call :: calls => do
      let reply ← perform fuel call
      let replies ← performAll fuel calls
      return reply :: replies

def Call.after (n : Nat) : Call X → Nat
  | .make _ => n + 1
  | _ => n

/-- Each call is about cells that have been made before, where there are `n` at the start. -/
def Scoped (n : Nat) : List (Call X) → Prop
  | [] => True
  | call :: calls => (∀ p ∈ call.cells, p < n) ∧ Scoped (call.after n) calls

inductive Classes.Steps : Classes X → List (Call X) → List (Reply X) → Classes X → Prop
  | nil {s : Classes X} : Steps s [] [] s
  | cons {s s' s'' : Classes X} {call : Call X} {calls : List (Call X)} {reply : Reply X}
      {replies : List (Reply X)} (step : s.Step call reply s') (steps : Steps s' calls replies s'') :
      Steps s (call :: calls) (reply :: replies) s''

/-- The forest stands for the classes: each cell leads to a root, related cells lead to one root,
and it holds the value of their class. -/
structure Represents (heap : Heap X) (s : Classes X) : Prop where
  cells : s.cells = heap.length
  leads : ∀ {p : Cell}, p < heap.length → ∃ r, Leads heap p r
  related : ∀ {p q r r' : Cell}, Leads heap p r → Leads heap q r' →
    (Related s.calls p q ↔ r = r')
  value : ∀ {p r : Cell} {x : X} {k : Nat}, Leads heap p r → heap[r]? = some (.ecr x k) →
    s.value p = some x
  within : ∀ pair ∈ s.calls, pair.1 < heap.length ∧ pair.2 < heap.length

end Calls

section Represents

variable {X : Type} {heap heap' heap1 : Heap X} {s s' : Classes X} {p q r a b t : Cell} {x y : X}
  {k k' : Nat}

theorem Represents.related_within (represents : Represents heap s)
    (related : Related s.calls p q) : p = q ∨ p < heap.length ∧ q < heap.length := by
  induction related with
  | rel p q mem => exact .inr (represents.within (p, q) mem)
  | refl p => exact .inl rfl
  | symm p q _ ih => exact ih.imp Eq.symm And.symm
  | trans p q r _ _ ih ih' =>
    rcases ih with rfl | first
    · exact ih'
    · rcases ih' with rfl | second
      · exact .inr first
      · exact .inr ⟨first.1, second.2⟩

theorem Represents.compressed (represents : Represents heap s)
    (compressed : Compressed heap heap') : Represents heap' s := by
  have back {p r : Cell} (leads : Leads heap' p r) : Leads heap p r := by
    obtain ⟨r', leads'⟩ := represents.leads (compressed.length ▸ leads.bound)
    cases leads.unique (compressed.leads leads')
    exact leads'
  refine ⟨represents.cells.trans compressed.length.symm, ?_, ?_, ?_, ?_⟩
  · intro p bound
    obtain ⟨r, leads⟩ := represents.leads (compressed.length ▸ bound)
    exact ⟨r, compressed.leads leads⟩
  · intro p q r r' leads leads'
    exact represents.related (back leads) (back leads')
  · intro p r x k leads found
    obtain ⟨y, k', held⟩ := (back leads).ends
    cases (compressed.held held).symm.trans found
    exact represents.value (back leads) held
  · rw [compressed.length]
    exact represents.within

theorem Leads.set_ecr (leads : Leads heap p r) (held : heap[a]? = some (.ecr y k')) :
    Leads (heap.set a (.ecr x k)) p r := by
  induction leads with
  | @root p z j found =>
    by_cases same : a = p
    · subst same
      exact .root (List.getElem?_set_self (Leads.root found).bound)
    · exact .root (by rwa [List.getElem?_set_ne same])
  | @step p p' r found _ ih =>
    have away : a ≠ p := by
      rintro rfl
      cases held.symm.trans found
    exact .step (by rwa [List.getElem?_set_ne away]) ih

theorem Represents.assign (represents : Represents heap s) (leads : Leads heap p r)
    (held : heap[r]? = some (.ecr y k')) :
    Represents (heap.set r (.ecr x k)) (s.assign p (some x)) := by
  have back {c d : Cell} (after : Leads (heap.set r (.ecr x k)) c d) : Leads heap c d := by
    obtain ⟨d', before⟩ := represents.leads (List.length_set ▸ after.bound)
    cases after.unique (before.set_ecr held)
    exact before
  refine ⟨represents.cells.trans List.length_set.symm, ?_, ?_, ?_, ?_⟩
  · intro c bound
    obtain ⟨d, before⟩ := represents.leads (List.length_set ▸ bound)
    exact ⟨d, before.set_ecr held⟩
  · intro c c' d d' after after'
    exact represents.related (back after) (back after')
  · intro c d z j after found
    have related := represents.related leads (back after)
    by_cases same : r = d
    · subst same
      rw [List.getElem?_set_self leads.self.bound] at found
      cases found
      exact Classes.assign_value (related.mpr rfl)
    · rw [List.getElem?_set_ne same] at found
      rw [Classes.assign_value_other fun joined => same (related.mp joined)]
      exact represents.value (back after) found
  · rw [List.length_set]
    exact represents.within

theorem Represents.merge (represents : Represents heap s) (leads : Leads heap p a)
    (leads' : Leads heap q b) (other : a ≠ b) (into : Leads heap t b)
    (held : heap[b]? = some (.ecr x k)) :
    Represents (heap.set a (.ptr t)) (s.merge p q (some x)) := by
  have after : Leads (heap.set a (.ptr t)) t b := into.set_of_root leads.self other.symm
  -- paths to `a` now end in `b`, and all others where they did
  have moved {c d : Cell} (before : Leads heap c d) :
      ∃ d', Leads (heap.set a (.ptr t)) c d' ∧ (d = a ∧ d' = b ∨ d ≠ a ∧ d' = d) := by
    by_cases same : d = a
    · subst same
      rcases before.set_ptr after with unchanged | passed
      · obtain ⟨y, k', held'⟩ := unchanged.ends
        rw [List.getElem?_set_self leads.self.bound] at held'
        cases held'
      · exact ⟨b, passed.2, .inl ⟨rfl, rfl⟩⟩
    · exact ⟨d, before.set_of_root leads.self same, .inr ⟨same, rfl⟩⟩
  have back {c d' : Cell} (now : Leads (heap.set a (.ptr t)) c d') :
      ∃ d, Leads heap c d ∧ (d = a ∧ d' = b ∨ d ≠ a ∧ d' = d) := by
    obtain ⟨d, before⟩ := represents.leads (List.length_set ▸ now.bound)
    obtain ⟨d'', now', ends⟩ := moved before
    cases now.unique now'
    exact ⟨d, before, ends⟩
  refine ⟨represents.cells.trans List.length_set.symm, ?_, ?_, ?_, ?_⟩
  · intro c bound
    obtain ⟨d, before⟩ := represents.leads (List.length_set ▸ bound)
    obtain ⟨d', now, -⟩ := moved before
    exact ⟨d', now⟩
  · intro c c' d d' now now'
    obtain ⟨e, before, ends⟩ := back now
    obtain ⟨e', before', ends'⟩ := back now'
    change Related ((p, q) :: s.calls) c c' ↔ d = d'
    rw [related_cons, represents.related before before', represents.related before leads,
      represents.related leads' before', represents.related before leads',
      represents.related leads before']
    grind
  · intro c d z j now found
    obtain ⟨e, before, ends⟩ := back now
    have joined : Related ((p, q) :: s.calls) p c ↔ d = b := by
      rw [related_cons, represents.related leads before, represents.related leads leads,
        represents.related leads' before, represents.related leads leads']
      grind
    by_cases same : d = b
    · subst same
      rw [List.getElem?_set_ne other] at found
      cases held.symm.trans found
      exact Classes.merge_value (joined.mpr rfl)
    · rw [Classes.merge_value_other fun related => same (joined.mp related)]
      rcases ends with ⟨-, equal⟩ | ⟨away, rfl⟩
      · exact absurd equal same
      · rw [List.getElem?_set_ne away.symm] at found
        exact represents.value before found
  · intro pair mem
    rw [List.length_set]
    cases mem with
    | head => exact ⟨leads.bound, leads'.bound⟩
    | tail _ mem => exact represents.within pair mem

theorem Represents.joined (represents : Represents heap s) (leads : Leads heap p a)
    (leads' : Leads heap q a) (held : heap[a]? = some (.ecr x k)) :
    Represents heap (s.merge p q (some x)) := by
  have pair : Related s.calls p q := (represents.related leads leads').mpr rfl
  refine ⟨represents.cells, represents.leads, ?_, ?_, ?_⟩
  · intro c c' d d' before before'
    exact (related_joined pair).trans (represents.related before before')
  · intro c d z j before found
    by_cases related : Related s.calls p c
    · cases (represents.related leads before).mp related
      cases held.symm.trans found
      exact Classes.merge_value ((related_joined pair).mpr related)
    · rw [Classes.merge_value_other fun joined => related ((related_joined pair).mp joined)]
      exact represents.value before found
  · intro pair mem
    cases mem with
    | head => exact ⟨leads.bound, leads'.bound⟩
    | tail _ mem => exact represents.within pair mem

theorem Represents.swap {v : Option X} (represents : Represents heap (s.merge q p v)) :
    Represents heap (s.merge p q v) := by
  refine ⟨represents.cells, represents.leads, ?_, ?_, ?_⟩
  · intro c c' d d' before before'
    exact related_swap.trans (represents.related before before')
  · intro c d z j before found
    have value := represents.value before found
    by_cases related : Related ((q, p) :: s.calls) q c
    · rw [Classes.merge_value related] at value
      rw [Classes.merge_value (related_push.trans (related_swap.mp related)), value]
    · rw [Classes.merge_value_other related] at value
      rw [Classes.merge_value_other, value]
      intro related'
      exact related (related_push.trans (related_swap.mp related'))
  · intro pair mem
    cases mem with
    | head => exact (represents.within (q, p) List.mem_cons_self).symm
    | tail _ mem => exact represents.within pair (List.mem_cons_of_mem _ mem)

theorem Leads.append (leads : Leads heap p r) (more : Heap X) : Leads (heap ++ more) p r := by
  have kept {p : Cell} {c : Content X} (found : heap[p]? = some c) :
      (heap ++ more)[p]? = some c := by
    rw [List.getElem?_append_left (List.getElem?_eq_some_iff.mp found).1, found]
  induction leads with
  | root found => exact .root (kept found)
  | step found _ ih => exact .step (kept found) ih

theorem Represents.make (represents : Represents heap s) : Represents (heap ++ [.ecr x 0])
      ⟨s.cells + 1, s.calls, Function.update s.value s.cells (some x)⟩ := by
  have cells := represents.cells
  have held : (heap ++ [Content.ecr x 0])[heap.length]? = some (.ecr x 0) :=
    List.getElem?_concat_length
  have back {c d : Cell} (now : Leads (heap ++ [.ecr x 0]) c d) :
      Leads heap c d ∧ c < heap.length ∨ c = heap.length ∧ d = heap.length := by
    have bound := now.bound
    rw [List.length_append, List.length_singleton] at bound
    rcases Nat.lt_succ_iff_lt_or_eq.mp bound with old | rfl
    · obtain ⟨d', before⟩ := represents.leads old
      cases now.unique (before.append _)
      exact .inl ⟨before, old⟩
    · exact .inr ⟨rfl, now.unique (.root held)⟩
  refine ⟨by simp [cells], ?_, ?_, ?_, ?_⟩
  · intro c bound
    rw [List.length_append, List.length_singleton] at bound
    rcases Nat.lt_succ_iff_lt_or_eq.mp bound with old | rfl
    · obtain ⟨d, before⟩ := represents.leads old
      exact ⟨d, before.append _⟩
    · exact ⟨heap.length, .root held⟩
  · intro c c' d d' now now'
    rcases back now with ⟨before, old⟩ | ⟨rfl, rfl⟩ <;>
      rcases back now' with ⟨before', old'⟩ | ⟨rfl, rfl⟩
    · exact represents.related before before'
    · have away : d ≠ heap.length := before.self.bound.ne
      refine iff_of_false (fun related => ?_) away
      rcases represents.related_within related with equal | inside
      · exact old.ne equal
      · exact absurd inside.2 (lt_irrefl _)
    · have away : heap.length ≠ d' := before'.self.bound.ne'
      refine iff_of_false (fun related => ?_) away
      rcases represents.related_within related with equal | inside
      · exact old'.ne' equal
      · exact absurd inside.1 (lt_irrefl _)
    · exact iff_of_true .refl rfl
  · intro c d z j now found
    rcases back now with ⟨before, old⟩ | ⟨rfl, rfl⟩
    · rw [List.getElem?_append_left before.self.bound] at found
      have kept : c ≠ s.cells := cells ▸ old.ne
      exact (Function.update_of_ne kept _ _).trans (represents.value before found)
    · cases held.symm.trans found
      rw [← cells]
      exact Function.update_self ..
  · intro pair mem
    obtain ⟨first, second⟩ := represents.within pair mem
    rw [List.length_append, List.length_singleton]
    exact ⟨Nat.lt_succ_of_lt first, Nat.lt_succ_of_lt second⟩

theorem chase_both (leads : Leads heap p a) (leads' : Leads heap q b) :
    ∃ heap1 heap2, Returns (fun fuel => chase fuel p) heap a heap1 ∧
      Returns (fun fuel => chase fuel q) heap1 b heap2 ∧ Compressed heap heap2 := by
  obtain ⟨heap1, first, compressed⟩ := chase_returns leads
  obtain ⟨heap2, second, compressed'⟩ := chase_returns (compressed.leads leads')
  exact ⟨heap1, heap2, first, second, compressed.trans compressed'⟩

def Performs (heap : Heap X) (s : Classes X) (call : Call X) : Prop :=
  ∃ reply heap' s', Returns (fun fuel => perform fuel call) heap reply heap' ∧
    s.Step call reply s' ∧ Represents heap' s'

theorem performs_get (represents : Represents heap s) (leads : Leads heap p a) :
    Performs heap s (.get p) := by
  obtain ⟨heap1, chased, compressed⟩ := chase_returns leads
  obtain ⟨x, k, held⟩ := leads.ends
  refine ⟨.value x, heap1, s, ?_, ⟨x, represents.value leads held, rfl, rfl⟩,
    represents.compressed compressed⟩
  exact .bind (.bind chased (.bind (.deref (compressed.held held)) .pure)) .pure

theorem performs_set (represents : Represents heap s) (leads : Leads heap p a) :
    Performs heap s (.set p x) := by
  obtain ⟨heap1, chased, compressed⟩ := chase_returns leads
  obtain ⟨y, k, held⟩ := leads.ends
  have after := represents.compressed compressed
  refine ⟨.void, heap1.set a (.ecr x k), s.assign p (some x), ?_, ⟨rfl, rfl⟩,
    after.assign (compressed.leads leads) (compressed.held held)⟩
  exact .bind (.bind chased (.bind (.deref (compressed.held held)) .assign)) .pure

theorem performs_equal (represents : Represents heap s) (leads : Leads heap p a)
    (leads' : Leads heap q b) : Performs heap s (.equal p q) := by
  obtain ⟨heap1, heap2, first, second, compressed⟩ := chase_both leads leads'
  refine ⟨.bool (a = b), heap2, s, ?_, ⟨a = b, rfl, ?_, rfl⟩, represents.compressed compressed⟩
  · exact .bind (.bind first (.bind second .pure)) .pure
  · rw [decide_eq_true_iff, represents.related leads leads']

theorem performs_make (represents : Represents heap s) : Performs heap s (.make x) := by
  refine ⟨.cell heap.length, heap ++ [.ecr x 0], _, ⟨0, fun _ _ => rfl⟩, ⟨?_, rfl⟩,
    represents.make⟩
  rw [represents.cells]

theorem Represents.apart (represents : Represents heap s) (leads : Leads heap p a)
    (leads' : Leads heap q b) (other : a ≠ b) : true = true ↔ ¬Related s.calls p q := by
  rw [represents.related leads leads']
  exact iff_of_true rfl other

theorem Represents.together (represents : Represents heap s) (leads : Leads heap p a)
    (leads' : Leads heap q a) : false = true ↔ ¬Related s.calls p q := by
  rw [represents.related leads leads']
  simp

theorem Represents.unite (represents : Represents heap s) (leads : Leads heap p a)
    (leads' : Leads heap q b) (other : a ≠ b) (held : heap[b]? = some (.ecr y k')) :
    Represents ((heap.set b (.ecr x k)).set a (.ptr b)) (s.merge p q (some x)) := by
  rw [← Classes.assign_merge (some x)]
  exact (represents.assign leads' held).merge (leads.set_ecr held) (leads'.set_ecr held) other
    (leads'.self.set_ecr held) (List.getElem?_set_self leads'.self.bound)

section Merging

variable (represents : Represents heap s) (leads : Leads heap p a) (leads' : Leads heap q b)
include represents leads leads'

theorem performs_link : Performs heap s (.link p q) := by
  obtain ⟨heap1, heap2, first, second, compressed⟩ := chase_both leads leads'
  obtain ⟨y, k, held⟩ := leads'.ends
  have after := represents.compressed compressed
  have value := represents.value leads' held
  by_cases same : a = b
  · subst same
    refine ⟨.bool false, heap2, s.merge p q (s.value q), ?_,
      ⟨false, rfl, represents.together leads leads', rfl⟩, ?_⟩
    · refine .bind (.bind first (.bind second ?_)) .pure
      rw [if_pos rfl]
      exact .pure
    · rw [value]
      exact after.joined (compressed.leads leads) (compressed.leads leads') (compressed.held held)
  · refine ⟨.bool true, heap2.set a (.ptr q), s.merge p q (s.value q), ?_,
      ⟨true, rfl, represents.apart leads leads' same, rfl⟩, ?_⟩
    · refine .bind (.bind first (.bind second ?_)) .pure
      rw [if_neg same]
      exact .bind .assign .pure
    · rw [value]
      exact after.merge (compressed.leads leads) (compressed.leads leads') same
        (compressed.leads leads') (compressed.held held)

theorem performs_union : Performs heap s (.union p q) := by
  obtain ⟨heap1, heap2, first, second, compressed⟩ := chase_both leads leads'
  obtain ⟨x, pr, heldP⟩ := leads.ends
  obtain ⟨y, qr, heldQ⟩ := leads'.ends
  have after := represents.compressed compressed
  have valueP := represents.value leads heldP
  have valueQ := represents.value leads' heldQ
  have leadsP := compressed.leads leads
  have leadsQ := compressed.leads leads'
  have found := compressed.held heldP
  have found' := compressed.held heldQ
  by_cases same : a = b
  · subst same
    refine ⟨.bool false, heap2, s.merge p q (s.value q), ?_,
      ⟨false, s.value q, rfl, represents.together leads leads', .inr rfl, rfl⟩, ?_⟩
    · refine .bind (.bind first (.bind second ?_)) .pure
      rw [if_pos rfl]
      exact .pure
    · rw [valueQ]
      exact after.joined leadsP leadsQ found'
  · have apart := represents.apart leads leads' same
    rcases lt_trichotomy pr qr with less | equal | more
    · refine ⟨.bool true, heap2.set a (.ptr b), s.merge p q (s.value q), ?_,
        ⟨true, s.value q, rfl, apart, .inr rfl, rfl⟩, ?_⟩
      · refine .bind (.bind first (.bind second ?_)) .pure
        rw [if_neg same]
        refine .bind (.deref found) (.bind (.deref found') ?_)
        simp only [if_neg less.ne, if_pos less]
        exact .bind .assign .pure
      · rw [valueQ]
        exact after.merge leadsP leadsQ same leadsQ.self found'
    · refine ⟨.bool true, (heap2.set b (.ecr y (qr + 1))).set a (.ptr b),
        s.merge p q (s.value q), ?_, ⟨true, s.value q, rfl, apart, .inr rfl, rfl⟩, ?_⟩
      · refine .bind (.bind first (.bind second ?_)) .pure
        rw [if_neg same]
        refine .bind (.deref found) (.bind (.deref found') ?_)
        simp only [if_pos equal]
        exact .bind .assign (.bind .assign .pure)
      · rw [valueQ]
        exact after.unite leadsP leadsQ same found'
    · refine ⟨.bool true, heap2.set b (.ptr a), s.merge p q (s.value p), ?_,
        ⟨true, s.value p, rfl, apart, .inl rfl, rfl⟩, ?_⟩
      · refine .bind (.bind first (.bind second ?_)) .pure
        rw [if_neg same]
        refine .bind (.deref found) (.bind (.deref found') ?_)
        simp only [if_neg more.ne', if_neg more.asymm]
        exact .bind .assign .pure
      · rw [valueP]
        apply Represents.swap
        exact after.merge leadsQ leadsP (Ne.symm same) leadsP.self found

theorem performs_unify (f : X → X → X) : Performs heap s (.unify f p q) := by
  obtain ⟨heap1, heap2, first, second, compressed⟩ := chase_both leads leads'
  obtain ⟨x, pr, heldP⟩ := leads.ends
  obtain ⟨y, qr, heldQ⟩ := leads'.ends
  have after := represents.compressed compressed
  have valueP := represents.value leads heldP
  have valueQ := represents.value leads' heldQ
  have leadsP := compressed.leads leads
  have leadsQ := compressed.leads leads'
  have found := compressed.held heldP
  have found' := compressed.held heldQ
  by_cases same : a = b
  · subst same
    refine ⟨.bool false, heap2.set a (.ecr (f x y) pr), s.merge p q (some (f x y)), ?_,
      ⟨false, x, y, rfl, represents.together leads leads', valueP, valueQ, rfl⟩, ?_⟩
    · refine .bind (.bind first (.bind second ?_)) .pure
      refine .bind (.deref found) (.bind (.deref found') ?_)
      simp only [if_pos True.intro]
      exact .bind .assign .pure
    · rw [← Classes.assign_merge (some (f x y))]
      exact (after.assign leadsQ found').joined (leadsP.set_ecr found) (leadsQ.set_ecr found)
        (List.getElem?_set_self leadsP.self.bound)
  · have apart := represents.apart leads leads' same
    rcases lt_trichotomy pr qr with less | equal | more
    · refine ⟨.bool true, (heap2.set b (.ecr (f x y) qr)).set a (.ptr b),
        s.merge p q (some (f x y)), ?_, ⟨true, x, y, rfl, apart, valueP, valueQ, rfl⟩,
        after.unite leadsP leadsQ same found'⟩
      refine .bind (.bind first (.bind second ?_)) .pure
      refine .bind (.deref found) (.bind (.deref found') ?_)
      simp only [if_neg same, if_neg less.ne, if_pos less]
      exact .bind .assign (.bind .assign .pure)
    · refine ⟨.bool true, (heap2.set b (.ecr (f x y) (qr + 1))).set a (.ptr b),
        s.merge p q (some (f x y)), ?_, ⟨true, x, y, rfl, apart, valueP, valueQ, rfl⟩,
        after.unite leadsP leadsQ same found'⟩
      refine .bind (.bind first (.bind second ?_)) .pure
      refine .bind (.deref found) (.bind (.deref found') ?_)
      simp only [if_neg same, if_pos equal]
      exact .bind .assign (.bind .assign .pure)
    · refine ⟨.bool true, (heap2.set a (.ecr (f x y) pr)).set b (.ptr a),
        s.merge p q (some (f x y)), ?_, ⟨true, x, y, rfl, apart, valueP, valueQ, rfl⟩,
        (after.unite leadsQ leadsP (Ne.symm same) found).swap⟩
      refine .bind (.bind first (.bind second ?_)) .pure
      refine .bind (.deref found) (.bind (.deref found') ?_)
      simp only [if_neg same, if_neg more.ne', if_neg more.asymm]
      exact .bind .assign (.bind .assign .pure)

end Merging

theorem Represents.performs (represents : Represents heap s) (call : Call X)
    (within : ∀ p ∈ call.cells, p < heap.length) : Performs heap s call := by
  have leads (p : Cell) (mem : p ∈ call.cells) : ∃ r, Leads heap p r :=
    represents.leads (within p mem)
  cases call with
  | make x => exact performs_make represents
  | get p =>
    obtain ⟨a, path⟩ := leads p (.head _)
    exact performs_get represents path
  | set p x =>
    obtain ⟨a, path⟩ := leads p (.head _)
    exact performs_set represents path
  | equal p q =>
    obtain ⟨a, path⟩ := leads p (.head _)
    obtain ⟨b, path'⟩ := leads q (.tail _ (.head _))
    exact performs_equal represents path path'
  | link p q =>
    obtain ⟨a, path⟩ := leads p (.head _)
    obtain ⟨b, path'⟩ := leads q (.tail _ (.head _))
    exact performs_link represents path path'
  | union p q =>
    obtain ⟨a, path⟩ := leads p (.head _)
    obtain ⟨b, path'⟩ := leads q (.tail _ (.head _))
    exact performs_union represents path path'
  | unify f p q =>
    obtain ⟨a, path⟩ := leads p (.head _)
    obtain ⟨b, path'⟩ := leads q (.tail _ (.head _))
    exact performs_unify represents path path' f

theorem represents_empty : Represents ([] : Heap X) .empty :=
  ⟨rfl, fun bound => absurd bound (Nat.not_lt_zero _), fun path => absurd path.bound (by simp),
    fun path => absurd path.bound (by simp), fun pair mem => absurd mem (by simp [Classes.empty])⟩

theorem Classes.Step.cells {call : Call X} {reply : Reply X} (step : s.Step call reply s') :
    s'.cells = call.after s.cells := by
  cases call with
  | make x =>
    obtain ⟨-, rfl⟩ := step
    rfl
  | get p =>
    obtain ⟨x, -, -, rfl⟩ := step
    rfl
  | set p x =>
    obtain ⟨-, rfl⟩ := step
    rfl
  | equal p q =>
    obtain ⟨b, -, -, rfl⟩ := step
    rfl
  | link p q =>
    obtain ⟨b, -, -, rfl⟩ := step
    rfl
  | union p q =>
    obtain ⟨b, x, -, -, -, rfl⟩ := step
    rfl
  | unify f p q =>
    obtain ⟨b, x, y, -, -, -, -, rfl⟩ := step
    rfl

theorem Represents.run {calls : List (Call X)} (represents : Represents heap s)
    (named : Scoped heap.length calls) :
    ∃ replies heap' s', Returns (fun fuel => performAll fuel calls) heap replies heap' ∧
      s.Steps calls replies s' ∧ Represents heap' s' := by
  induction calls generalizing heap s with
  | nil => exact ⟨[], heap, s, .pure, .nil, represents⟩
  | cons call calls ih =>
    obtain ⟨reply, heap1, s1, first, step, represents1⟩ := represents.performs call named.1
    have made : heap1.length = call.after heap.length := by
      rw [← represents1.cells, step.cells, represents.cells]
    obtain ⟨replies, heap', s', rest, steps, represents'⟩ := ih represents1 (made ▸ named.2)
    exact ⟨reply :: replies, heap', s', .bind first (.bind rest .pure), .cons step steps,
      represents'⟩

/-- Every sequence of calls comes to an end without an exception, with the replies of the classes.
What is left is a forest without cycles that stands for them. -/
theorem calls_classes (calls : List (Call X)) (named : Scoped 0 calls) :
    ∃ replies heap s, Returns (fun fuel => performAll fuel calls) [] replies heap ∧
      Classes.empty.Steps calls replies s ∧ Represents heap s :=
  represents_empty.run named

end Represents

theorem calls_classes_three :
    ∃ replies heap s,
      Returns (fun fuel => performAll fuel
        [.make 1, .make 2, .make 3, .unify (· + ·) 0 1, .link 2 0, .get 2]) [] replies heap ∧
      Classes.empty.Steps
        [.make 1, .make 2, .make 3, .unify (· + ·) 0 1, .link 2 0, .get 2] replies s ∧
      Represents heap s :=
  calls_classes _ (by simp [Scoped, Call.cells, Call.after])

end Mythryl.DisjointSets
