import Mythryl.Reporting
import Mathlib.Data.List.Chain

/-!
# Expressions of operands and infix operators

The grade of an atom is its level and the side it groups to when it is an operator, and `none` when
it is an operand.
-/

namespace InfixExpressions

inductive Side
  | left
  | right
deriving DecidableEq

structure Grade where
  level : Int
  side : Side

inductive Tree (α : Type)
  | atom (a : α)
  | apply (function : Tree α) (argument : α)
  | operate (left : Tree α) (operator : α) (right : Tree α)

namespace Tree

variable {α : Type}

def inorder : Tree α → List α
  | atom a => [a]
  | apply function argument => function.inorder ++ [argument]
  | operate left operator right => left.inorder ++ operator :: right.inorder

def root (grade : α → Option Grade) : Tree α → Option Grade
  | atom _ => none
  | apply _ _ => none
  | operate _ operator _ => grade operator

end Tree

variable {α : Type}

/-- An operand comes first and last, and no two operators are neighbours. -/
structure WellShaped (operator : α → Prop) (atoms : List α) : Prop where
  starts : ∃ a ∈ atoms.head?, ¬operator a
  ends : ∃ a ∈ atoms.getLast?, ¬operator a
  apart : atoms.IsChain fun a b => ¬(operator a ∧ operator b)

inductive Continues (operator : α → Prop) : List α → Prop
  | nil : Continues operator []
  | operand {a atoms} : ¬operator a → Continues operator atoms → Continues operator (a :: atoms)
  | operator {o a atoms} : operator o → ¬operator a → Continues operator atoms →
      Continues operator (o :: a :: atoms)

section Shape

variable {operator : α → Prop} {a o : α} {atoms : List α}

theorem wellShaped_cons_cons (operand : ¬operator a) :
    WellShaped operator (a :: o :: atoms) ↔
      (∃ b ∈ (o :: atoms).getLast?, ¬operator b) ∧
        (o :: atoms).IsChain fun a b => ¬(operator a ∧ operator b) := by
  constructor
  · intro shaped
    have apart := shaped.apart
    rw [List.isChain_cons_cons] at apart
    refine ⟨?_, apart.2⟩
    have ends := shaped.ends
    rwa [List.getLast?_cons_cons] at ends
  · intro ⟨ends, apart⟩
    constructor
    · exact ⟨a, rfl, operand⟩
    · rwa [List.getLast?_cons_cons]
    · rw [List.isChain_cons_cons]
      exact ⟨fun both => operand both.1, apart⟩

theorem Continues.wellShaped (continues : Continues operator atoms) (operand : ¬operator a) :
    WellShaped operator (a :: atoms) := by
  induction continues generalizing a with
  | nil => exact ⟨⟨a, rfl, operand⟩, ⟨a, rfl, operand⟩, List.isChain_singleton a⟩
  | operand next _ ih =>
    have shaped := ih next
    rw [wellShaped_cons_cons operand]
    exact ⟨shaped.ends, shaped.apart⟩
  | operator isOperator next _ ih =>
    have shaped := ih next
    rw [wellShaped_cons_cons operand]
    constructor
    · rw [List.getLast?_cons_cons]
      exact shaped.ends
    · rw [List.isChain_cons_cons]
      exact ⟨fun both => next both.2, shaped.apart⟩

theorem WellShaped.tail (shaped : WellShaped operator (a :: atoms)) (operand : ¬operator a) :
    Continues operator atoms := by
  induction hlen : atoms.length using Nat.strong_induction_on generalizing a atoms with
  | h n ih =>
    subst hlen
    cases atoms with
    | nil => exact .nil
    | cons o atoms =>
      rw [wellShaped_cons_cons operand] at shaped
      obtain ⟨ends, apart⟩ := shaped
      by_cases isOperator : operator o
      · cases atoms with
        | nil =>
          obtain ⟨b, last, notOperator⟩ := ends
          cases last
          exact absurd isOperator notOperator
        | cons b atoms =>
          rw [List.isChain_cons_cons] at apart
          have next : ¬operator b := fun also => apart.1 ⟨isOperator, also⟩
          have rest : WellShaped operator (b :: atoms) := ⟨⟨b, rfl, next⟩, ends, apart.2⟩
          apply Continues.operator isOperator next
          apply ih atoms.length _ rest next rfl
          simp only [List.length_cons]
          omega
      · apply Continues.operand isOperator
        exact ih atoms.length (by simp) ⟨⟨o, rfl, isOperator⟩, ends, apart⟩ isOperator rfl

end Shape

def LeftOperand (outer inner : Grade) : Prop :=
  outer.level ≤ inner.level ∧ (outer.level = inner.level → outer.side = .left)

def RightOperand (outer inner : Grade) : Prop :=
  outer.level ≤ inner.level ∧ (outer.level = inner.level → outer.side = .right)

/-- No operand has a root of lower level, and operators of one level group to their side. An
application takes operands only. -/
inductive Resolved (grade : α → Option Grade) : Tree α → Prop
  | atom {a} : grade a = none → Resolved grade (.atom a)
  | apply {function a} : Resolved grade function → function.root grade = none → grade a = none →
      Resolved grade (.apply function a)
  | operate {left o right} {outer : Grade} : grade o = some outer →
      Resolved grade left → (∀ inner ∈ left.root grade, LeftOperand outer inner) →
      Resolved grade right → (∀ inner ∈ right.root grade, RightOperand outer inner) →
      Resolved grade (.operate left o right)

def Unmixed (grade : α → Option Grade) (atoms : List α) : Prop :=
  ∀ o ∈ atoms, ∀ p ∈ atoms, ∀ g ∈ grade o, ∀ h ∈ grade p, g.level = h.level → g.side = h.side

namespace Tree

variable (grade : α → Option Grade)

def applyLast (a : α) : Tree α → Tree α
  | operate left operator right => operate left operator (right.applyLast a)
  | tree => .apply tree a

instance (outer inner : Grade) : Decidable (RightOperand outer inner) :=
  inferInstanceAs (Decidable (_ ∧ _))

def operateLast (o a : α) (g : Grade) : Tree α → Tree α
  | operate left operator right =>
      match grade operator with
      | some outer =>
          if RightOperand outer g then operate left operator (right.operateLast o a g)
          else .operate (.operate left operator right) o (.atom a)
      | none => .operate (.operate left operator right) o (.atom a)
  | tree => .operate tree o (.atom a)

end Tree

section Existence

variable {grade : α → Option Grade} {t : Tree α} {a o : α} {g : Grade} {atoms : List α}

@[simp] theorem inorder_applyLast : (t.applyLast a).inorder = t.inorder ++ [a] := by
  induction t with
  | atom b => rfl
  | apply function b _ => rfl
  | operate left p right _ ih => simp [Tree.applyLast, Tree.inorder, ih]

@[simp] theorem root_applyLast : (t.applyLast a).root grade = t.root grade := by
  cases t <;> rfl

theorem Resolved.applyLast (resolved : Resolved grade t) (operand : grade a = none) :
    Resolved grade (t.applyLast a) := by
  induction resolved with
  | atom first => exact .apply (.atom first) rfl operand
  | apply function isTight first _ => exact .apply (.apply function isTight first) rfl operand
  | operate isOperator left leftFits right rightFits _ ih =>
    apply Resolved.operate isOperator left leftFits ih
    rwa [root_applyLast]

@[simp] theorem inorder_operateLast :
    (t.operateLast grade o a g).inorder = t.inorder ++ [o, a] := by
  induction t with
  | atom b => rfl
  | apply function b _ => simp [Tree.operateLast, Tree.inorder]
  | operate left p right _ ih =>
    rw [Tree.operateLast]
    split
    · split
      · simp [Tree.inorder, ih]
      · simp [Tree.inorder]
    · simp [Tree.inorder]

theorem root_operateLast (isOperator : grade o = some g) {inner : Grade}
    (mem : inner ∈ (t.operateLast grade o a g).root grade) : inner = g ∨ inner ∈ t.root grade := by
  cases t with
  | atom b => exact .inl (by simpa [Tree.operateLast, Tree.root, isOperator] using mem.symm)
  | apply function b => exact .inl (by simpa [Tree.operateLast, Tree.root, isOperator] using mem.symm)
  | operate left p right =>
    rw [Tree.operateLast] at mem
    split at mem
    · split at mem
      · exact .inr mem
      · exact .inl (by simpa [Tree.root, isOperator] using mem.symm)
    · exact .inl (by simpa [Tree.root, isOperator] using mem.symm)

theorem leftOperand_of_not_right {outer : Grade} (not : ¬RightOperand outer g)
    (unmixed : outer.level = g.level → outer.side = g.side) : LeftOperand g outer := by
  unfold RightOperand at not
  rcases Int.lt_or_le g.level outer.level with lower | le
  · exact ⟨Int.le_of_lt lower, fun same => absurd same (Int.ne_of_lt lower)⟩
  · have same : outer.level = g.level := by
      by_contra different
      exact not ⟨le, fun same => absurd same different⟩
    constructor
    · exact Int.le_of_eq same.symm
    · intro _
      rw [← unmixed same]
      cases side : outer.side with
      | left => rfl
      | right => exact absurd ⟨le, fun _ => side⟩ not

theorem Resolved.operateLast (resolved : Resolved grade t) (isOperator : grade o = some g)
    (operand : grade a = none)
    (unmixed : ∀ p ∈ t.inorder, ∀ h ∈ grade p, h.level = g.level → h.side = g.side) :
    Resolved grade (t.operateLast grade o a g) := by
  have last : Resolved grade (.atom a) := .atom operand
  have nothing : ∀ inner ∈ (Tree.atom a).root grade, RightOperand g inner := by
    intro inner mem
    cases mem
  induction resolved with
  | atom first => exact .operate isOperator (.atom first) (nofun) last nothing
  | apply function isTight first _ =>
    exact .operate isOperator (.apply function isTight first) (nofun) last
      nothing
  | @operate left p right outer isOuter resolvedLeft leftFits resolvedRight rightFits _ ih =>
    rw [Tree.operateLast, isOuter]
    simp only
    split
    next below =>
      apply Resolved.operate isOuter resolvedLeft leftFits
      · apply ih
        intro p mem
        apply unmixed
        simp [Tree.inorder, mem]
      · intro inner mem
        rcases root_operateLast isOperator mem with rfl | mem
        · exact below
        · exact rightFits inner mem
    next above =>
      apply Resolved.operate isOperator
        (.operate isOuter resolvedLeft leftFits resolvedRight rightFits) _ last nothing
      intro inner mem
      have same : outer = inner := Option.some.inj (isOuter.symm.trans mem)
      rw [← same]
      apply leftOperand_of_not_right above
      apply unmixed p _ outer isOuter
      simp [Tree.inorder]

def grow (grade : α → Option Grade) : Tree α → List α → Tree α
  | t, [] => t
  | t, [a] => t.applyLast a
  | t, a :: b :: atoms =>
      match grade a with
      | none => grow grade (t.applyLast a) (b :: atoms)
      | some g => grow grade (t.operateLast grade a b g) atoms

theorem grow_operand (operand : grade a = none) :
    grow grade t (a :: atoms) = grow grade (t.applyLast a) atoms := by
  cases atoms with
  | nil => rw [grow, grow]
  | cons b atoms => rw [grow, operand]

theorem grow_operator (isOperator : grade o = some g) :
    grow grade t (o :: a :: atoms) = grow grade (t.operateLast grade o a g) atoms := by
  rw [grow, isOperator]

theorem Continues.grow_resolved (continues : Continues (grade · ≠ none) atoms)
    (resolved : Resolved grade t) (unmixed : Unmixed grade (t.inorder ++ atoms)) :
    Resolved grade (grow grade t atoms) ∧ (grow grade t atoms).inorder = t.inorder ++ atoms := by
  induction continues generalizing t with
  | nil => exact ⟨resolved, (List.append_nil _).symm⟩
  | operand operand _ ih =>
    have operand := not_not.mp operand
    rw [grow_operand operand]
    simpa using ih (resolved.applyLast operand) (by simpa using unmixed)
  | @operator o a atoms isOperator operand _ ih =>
    obtain ⟨g, isOperator⟩ := Option.ne_none_iff_exists'.mp isOperator
    rw [grow_operator isOperator]
    have next := resolved.operateLast isOperator (not_not.mp operand) fun p mem h isGrade =>
      unmixed p (by simp [mem]) o (by simp) h isGrade g isOperator
    simpa using ih next (by simpa using unmixed)

end Existence

section Uniqueness

variable {grade : α → Option Grade} {t left right : Tree α} {a o : α} {outer inner g : Grade}
  {atoms later : List α}

theorem Continues.append (continues : Continues (grade · ≠ none) atoms)
    (also : Continues (grade · ≠ none) later) : Continues (grade · ≠ none) (atoms ++ later) := by
  induction continues with
  | nil => exact also
  | operand operand _ ih => exact .operand operand ih
  | operator isOperator operand _ ih => exact .operator isOperator operand ih

theorem Continues.grow_append (continues : Continues (grade · ≠ none) atoms) :
    grow grade t (atoms ++ later) = grow grade (grow grade t atoms) later := by
  induction continues generalizing t with
  | nil => rfl
  | operand operand _ ih =>
    have operand := not_not.mp operand
    rw [List.cons_append, grow_operand operand, grow_operand operand]
    exact ih
  | operator isOperator operand _ ih =>
    obtain ⟨g, isOperator⟩ := Option.ne_none_iff_exists'.mp isOperator
    rw [List.cons_append, List.cons_append, grow_operator isOperator, grow_operator isOperator]
    exact ih

theorem RightOperand.trans (first : RightOperand outer inner)
    (second : inner.level ≤ g.level) : RightOperand outer g := by
  constructor
  · exact Int.le_trans first.1 second
  · intro same
    apply first.2
    have le := first.1
    omega

theorem Resolved.rightOperand (resolved : Resolved grade t)
    (fits : ∀ inner ∈ t.root grade, RightOperand outer inner) (mem : o ∈ t.inorder)
    (isOperator : grade o = some g) : RightOperand outer g := by
  induction resolved with
  | @atom a operand =>
    rw [Tree.inorder, List.mem_singleton] at mem
    rw [mem, operand] at isOperator
    cases isOperator
  | @apply function a _ isTight operand ih =>
    rw [Tree.inorder, List.mem_append, List.mem_singleton] at mem
    rcases mem with mem | mem
    · apply ih _ mem
      rw [isTight]
      intro inner none
      cases none
    · rw [mem, operand] at isOperator
      cases isOperator
  | @operate left p right middle isMiddle _ leftFits _ rightFits ihLeft ihRight =>
    have root : RightOperand outer middle := fits middle isMiddle
    rw [Tree.inorder, List.mem_append, List.mem_cons] at mem
    rcases mem with mem | same | mem
    · exact ihLeft (fun inner isRoot => root.trans (leftFits inner isRoot).1) mem
    · rw [same, isMiddle] at isOperator
      cases isOperator
      exact root
    · exact ihRight (fun inner isRoot => root.trans (rightFits inner isRoot).1) mem

theorem Continues.grow_right (continues : Continues (grade · ≠ none) atoms)
    (isOuter : grade o = some outer) (fits : ∀ p ∈ atoms, ∀ g ∈ grade p, RightOperand outer g) :
    grow grade (.operate left o t) atoms = .operate left o (grow grade t atoms) := by
  induction continues generalizing t with
  | nil => rfl
  | operand operand _ ih =>
    have operand := not_not.mp operand
    rw [grow_operand operand, grow_operand operand]
    apply ih
    intro p mem
    exact fits p (List.mem_cons_of_mem _ mem)
  | @operator p a atoms isOperator operand _ ih =>
    obtain ⟨g, isOperator⟩ := Option.ne_none_iff_exists'.mp isOperator
    have below : RightOperand outer g := fits p List.mem_cons_self g isOperator
    rw [grow_operator isOperator, grow_operator isOperator, Tree.operateLast, isOuter]
    simp only [if_pos below]
    apply ih
    intro p mem
    exact fits p (List.mem_cons_of_mem _ (List.mem_cons_of_mem _ mem))

theorem not_rightOperand_of_left (fits : LeftOperand outer inner)
    (unmixed : outer.level = inner.level → outer.side = inner.side) :
    ¬RightOperand inner outer := by
  intro right
  have same : outer.level = inner.level := Int.le_antisymm fits.1 right.1
  have isLeft := fits.2 same
  rw [unmixed same, right.2 same.symm] at isLeft
  cases isLeft

theorem Resolved.operateLast_eq (resolved : Resolved grade t)
    (fits : ∀ inner ∈ t.root grade, ¬RightOperand inner g) :
    t.operateLast grade o a g = .operate t o (.atom a) := by
  cases resolved with
  | atom _ => rfl
  | apply _ _ _ => rfl
  | operate isOuter _ _ _ _ =>
    rw [Tree.operateLast, isOuter]
    simp only [if_neg (fits _ isOuter)]

theorem Resolved.root_mem (resolved : Resolved grade t) (isRoot : inner ∈ t.root grade) :
    ∃ p ∈ t.inorder, grade p = some inner := by
  cases resolved with
  | atom _ => cases isRoot
  | apply _ _ _ => cases isRoot
  | @operate left p right _ _ _ _ _ _ => exact ⟨p, by simp [Tree.inorder], isRoot⟩

theorem Resolved.grows (resolved : Resolved grade t) (unmixed : Unmixed grade t.inorder) :
    ∃ a atoms, t.inorder = a :: atoms ∧ grade a = none ∧ Continues (grade · ≠ none) atoms ∧
      grow grade (.atom a) atoms = t := by
  induction resolved with
  | @atom a operand => exact ⟨a, [], rfl, operand, .nil, rfl⟩
  | @apply function b resolved isTight operand ih =>
    obtain ⟨a, atoms, inorder, first, continues, grown⟩ :=
      ih fun p mem q mem' => unmixed p (by simp [Tree.inorder, mem]) q (by simp [Tree.inorder, mem'])
    refine ⟨a, atoms ++ [b], by rw [Tree.inorder, inorder, List.cons_append], first,
      continues.append (.operand (not_not.mpr operand) .nil), ?_⟩
    rw [continues.grow_append, grown, grow]
    cases resolved with
    | atom _ => rfl
    | apply _ _ _ => rfl
    | operate isOperator _ _ _ _ =>
      rw [Tree.root, isOperator] at isTight
      cases isTight
  | @operate left o right outer isOuter resolvedLeft leftFits resolvedRight rightFits ihLeft ihRight =>
    obtain ⟨a, atoms, inorder, first, continues, grown⟩ := ihLeft
      fun p mem q mem' => unmixed p (by simp [Tree.inorder, mem]) q (by simp [Tree.inorder, mem'])
    obtain ⟨b, later, inorder', next, continues', grown'⟩ := ihRight
      fun p mem q mem' => unmixed p (by simp [Tree.inorder, mem]) q (by simp [Tree.inorder, mem'])
    have isOperator : grade o ≠ none := by simp [isOuter]
    refine ⟨a, atoms ++ o :: b :: later, ?_, first,
      continues.append (.operator isOperator (not_not.mpr next) continues'), ?_⟩
    · rw [Tree.inorder, inorder, inorder', List.cons_append]
    · rw [continues.grow_append, grown, grow_operator isOuter]
      have above : left.operateLast grade o b outer = .operate left o (.atom b) := by
        apply resolvedLeft.operateLast_eq
        intro inner isRoot
        apply not_rightOperand_of_left (leftFits inner isRoot)
        obtain ⟨p, mem, isInner⟩ := resolvedLeft.root_mem isRoot
        exact unmixed o (by simp [Tree.inorder]) p (by simp [Tree.inorder, mem]) outer isOuter inner
          isInner
      rw [above, continues'.grow_right isOuter, grown']
      intro p mem g isGrade
      apply resolvedRight.rightOperand rightFits _ isGrade
      rw [inorder']
      exact List.mem_cons_of_mem _ mem

theorem WellShaped.resolves (shaped : WellShaped (grade · ≠ none) atoms)
    (unmixed : Unmixed grade atoms) :
    ∃ t, ∀ t', Resolved grade t' ∧ t'.inorder = atoms ↔ t' = t := by
  obtain ⟨a, first, operand⟩ := shaped.starts
  cases atoms with
  | nil => cases first
  | cons b atoms =>
    cases first
    refine ⟨grow grade (.atom a) atoms, fun t' => ⟨?_, ?_⟩⟩
    · rintro ⟨resolved, inorder⟩
      obtain ⟨b, later, inorder', -, -, grown⟩ := resolved.grows (by rwa [inorder])
      rw [inorder', List.cons.injEq] at inorder
      obtain ⟨rfl, rfl⟩ := inorder
      exact grown.symm
    · rintro rfl
      exact (shaped.tail operand).grow_resolved (.atom (not_not.mp operand)) unmixed

end Uniqueness

end InfixExpressions

/-!
# Resolution of operator precedence

`src/lib/compiler/front/typer/main/resolve-operator-precedence.pkg`, with the fixities of
`src/lib/compiler/front/basics/map/fixity.pkg`.
-/

namespace Mythryl.ResolveOperatorPrecedence
open Reporting InfixExpressions

inductive Fixity
  | nonfix
  | infixed (precedenceLeft precedenceRight : Int)
deriving DecidableEq

def infixleft (n : Int) : Fixity := .infixed (n + n) (n + n + 1)

def infixright (n : Int) : Fixity := .infixed (n + n + 1) (n + n)

/-- Fixity symbols have a namespace of their own, so that the name is all that tells them apart. -/
structure Symbol where
  name : String
deriving DecidableEq

def Symbolmapstack := Symbol → Option Fixity

def findFixityBySymbol (symbolmapstack : Symbolmapstack) (symbol : Symbol) : Fixity :=
  match symbolmapstack symbol with
  | some fixity => fixity
  | none => .nonfix

abbrev SourceCodeRegion := Int × Int

inductive Severity
  | warning
  | error
deriving DecidableEq

structure Message where
  sourceCodeRegion : SourceCodeRegion
  severity : Severity
  text : String

structure FixityItem (X : Type) where
  item : X
  sourceCodeRegion : SourceCodeRegion
  fixity : Option Symbol

structure Token (X : Type) where
  expression : X
  fixity : Fixity
  symbol : Option Symbol
  err : SourceCodeRegion

inductive PrecedenceStack (X : Type)
  | binop (symbol : Symbol) (precedence : Int) (expression : X) (rest : PrecedenceStack X)
  | leaf (expression : X) (rest : PrecedenceStack X)
  | bottomOfStack

variable {X : Type}

def ensureLeaf (stack : PrecedenceStack X) :
    Token X → Reporting String Message (PrecedenceStack X)
  | ⟨expression, .nonfix, _, _⟩ => quiet (.leaf expression stack)
  | ⟨expression, .infixed _ _, some symbol, err⟩ => do
      report ⟨err, .error, "expression or pattern begins with infix identifier \"" ++ symbol.name
        ++ "\""⟩
      quiet (.leaf expression stack)
  | _ => fail "precedence: ensureLEAF"

section Parse

variable (apply pair : X → X → X)

def parseItem : PrecedenceStack X → Token X → Reporting String Message (PrecedenceStack X)
  | .leaf expression1 restOfStack, ⟨expression2, .nonfix, _, _⟩ =>
      quiet (.leaf (apply expression1 expression2) restOfStack)
  | .binop symbol precedence expression rest, token =>
      ensureLeaf (.binop symbol precedence expression rest) token
  | .leaf expression1 (.binop symbol2 precedence2 expression2 (.leaf expression3 restOfStack)),
      ⟨expression4, .infixed precedence4left precedence4right, some symbol, err⟩ =>
      if precedence4left > precedence2 then
        quiet (.binop symbol precedence4right expression4 (.leaf expression1
          (.binop symbol2 precedence2 expression2 (.leaf expression3 restOfStack))))
      else do
        if precedence4left = precedence2 then
          report ⟨err, .warning,
            "mixed left- and right-associative operators of same precedence"⟩
        parseItem (.leaf (apply expression2 (pair expression3 expression1)) restOfStack)
          ⟨expression4, .infixed precedence4left precedence4right, some symbol, err⟩
  | .leaf expression1 rest, ⟨expression, .infixed _ precedenceRight, some symbol, _⟩ =>
      quiet (.binop symbol precedenceRight expression (.leaf expression1 rest))
  | _, _ => fail "Precedence::parse"
termination_by stack => sizeOf stack

def finish : PrecedenceStack X → SourceCodeRegion → Reporting String Message X
  | .leaf e1 (.binop _ _ e2 (.leaf e3 r)), err => finish (.leaf (apply e2 (pair e3 e1)) r) err
  | .leaf e1 .bottomOfStack, _ => quiet e1
  | .binop symbol _ e1 (.leaf e2 p), err => do
      report ⟨err, .error, "expression or pattern ends with infix identifier \"" ++ symbol.name
        ++ "\""⟩
      finish (.leaf (apply e2 e1) p) err
  | .bottomOfStack, _ => fail "Corelang::finish BOTTOM_OF_STACK"
  | _, _ => fail "Corelang::finish"
termination_by stack => sizeOf stack

def unpackInputItem (symbolmapstack : Symbolmapstack) (input : FixityItem X) : Token X where
  expression := input.item
  fixity :=
    match input.fixity with
    | none => .nonfix
    | some symbol => findFixityBySymbol symbolmapstack symbol
  symbol := input.fixity
  err := input.sourceCodeRegion

def endloc : List (FixityItem X) → Reporting String Message SourceCodeRegion
  | [last] => quiet (last.sourceCodeRegion.2, last.sourceCodeRegion.2)
  | _ :: a => endloc a
  | [] => fail "precedence: endloc"

def loop (symbolmapstack : Symbolmapstack) (allInputItems : List (FixityItem X)) :
    PrecedenceStack X → List (FixityItem X) → Reporting String Message X
  | stack, inputItem :: remainingItems => do
      let stack ← parseItem apply pair stack (unpackInputItem symbolmapstack inputItem)
      loop symbolmapstack allInputItems stack remainingItems
  | stack, [] => do
      let err ← endloc allInputItems
      finish apply pair stack err

def makeInitialStack (token : Token X) : Reporting String Message (PrecedenceStack X) :=
  ensureLeaf .bottomOfStack token

def parse : List (FixityItem X) → Symbolmapstack → Reporting String Message X
  | firstItem :: nonfirstItems, symbolmapstack => do
      let stack ← makeInitialStack (unpackInputItem symbolmapstack firstItem)
      loop apply pair symbolmapstack (firstItem :: nonfirstItems) stack nonfirstItems
  | [], _ => fail "precedence: parse"

end Parse

end Mythryl.ResolveOperatorPrecedence
