import Mythryl.OperatorPrecedence.Expressions

/-! # The resolver follows the declared grammar -/

namespace Mythryl.ResolveOperatorPrecedence
open Reporting InfixExpressions

variable {X : Type}

inductive Declaration
  | nonfix
  | infixleft (n : Int)
  | infixright (n : Int)

namespace Declaration

def fixity : Declaration → Fixity
  | nonfix => .nonfix
  | infixleft n => ResolveOperatorPrecedence.infixleft n
  | infixright n => ResolveOperatorPrecedence.infixright n

def grade : Declaration → Option Grade
  | nonfix => none
  | infixleft n => some ⟨n, .left⟩
  | infixright n => some ⟨n, .right⟩

end Declaration

def declaredTable (declared : Symbol → Option Declaration) : Symbolmapstack :=
  fun symbol => (declared symbol).map Declaration.fixity

def declaredGrade (declared : Symbol → Option Declaration) (input : FixityItem X) :
    Option Grade :=
  (input.fixity.bind declared).bind Declaration.grade

def Infixed (symbolmapstack : Symbolmapstack) (input : FixityItem X) : Prop :=
  (unpackInputItem symbolmapstack input).fixity ≠ .nonfix

theorem infixed_declaredTable {declared : Symbol → Option Declaration} {input : FixityItem X} :
    Infixed (declaredTable declared) input ↔ declaredGrade declared input ≠ none := by
  unfold Infixed declaredGrade unpackInputItem findFixityBySymbol declaredTable
  cases input.fixity with
  | none => simp
  | some symbol =>
    cases found : declared symbol with
    | none => simp [found]
    | some declaration =>
      cases declaration with
      | nonfix => simp [found, Declaration.fixity, Declaration.grade]
      | infixleft n => simp [found, Declaration.fixity, Declaration.grade, infixleft]
      | infixright n => simp [found, Declaration.fixity, Declaration.grade, infixright]

structure Operator (symbolmapstack : Symbolmapstack) (X : Type) where
  input : FixityItem X
  symbol : Symbol
  left : Int
  right : Int
  named : input.fixity = some symbol
  found : findFixityBySymbol symbolmapstack symbol = .infixed left right

section Stacks

variable {symbolmapstack : Symbolmapstack}

theorem unpackInputItem_operand {input : FixityItem X} (operand : ¬Infixed symbolmapstack input) :
    unpackInputItem symbolmapstack input =
      ⟨input.item, .nonfix, input.fixity, input.sourceCodeRegion⟩ := by
  have nonfix := not_not.mp operand
  rw [← nonfix]
  rfl

theorem unpackInputItem_operator (o : Operator symbolmapstack X) :
    unpackInputItem symbolmapstack o.input =
      ⟨o.input.item, .infixed o.left o.right, some o.symbol, o.input.sourceCodeRegion⟩ := by
  rw [unpackInputItem, o.named]
  simp only [o.found]

theorem exists_operator {input : FixityItem X} (isInfix : Infixed symbolmapstack input) :
    ∃ o : Operator symbolmapstack X, o.input = input := by
  unfold Infixed unpackInputItem at isInfix
  cases named : input.fixity with
  | none => exact absurd (by rw [named]) isInfix
  | some symbol =>
    cases found : findFixityBySymbol symbolmapstack symbol with
    | nonfix => exact absurd (by simp only [named, found]) isInfix
    | infixed left right => exact ⟨⟨input, symbol, left, right, named, found⟩, rfl⟩

abbrev Pending (symbolmapstack : Symbolmapstack) (X : Type) :=
  List (InfixExpressions.Tree (FixityItem X) × Operator symbolmapstack X)

def pendingInorder : Pending symbolmapstack X → List (FixityItem X)
  | [] => []
  | (left, o) :: rest => pendingInorder rest ++ left.inorder ++ [o.input]

section Build

variable (apply pair : X → X → X)

def build : InfixExpressions.Tree (FixityItem X) → X
  | .atom input => input.item
  | .apply function argument => apply (build function) argument.item
  | .operate left operator right => apply operator.item (pair (build left) (build right))

def stackOf : Pending symbolmapstack X → PrecedenceStack X
  | [] => .bottomOfStack
  | (left, o) :: rest =>
      .binop o.symbol o.right o.input.item (.leaf (build apply pair left) (stackOf rest))

end Build

variable {apply pair : X → X → X} {t left : InfixExpressions.Tree (FixityItem X)}
  {input : FixityItem X}
  {rest : Pending symbolmapstack X} {o p : Operator symbolmapstack X}

theorem ensureLeaf_operand (stack : PrecedenceStack X) (operand : ¬Infixed symbolmapstack input) :
    ensureLeaf stack (unpackInputItem symbolmapstack input) = quiet (.leaf input.item stack) := by
  rw [unpackInputItem_operand operand]
  rfl

theorem ensureLeaf_operator (stack : PrecedenceStack X) (o : Operator symbolmapstack X) :
    ensureLeaf stack (unpackInputItem symbolmapstack o.input) =
      .ok (.leaf o.input.item stack, [⟨o.input.sourceCodeRegion, .error,
        "expression or pattern begins with infix identifier \"" ++ o.symbol.name ++ "\""⟩]) := by
  rw [unpackInputItem_operator o]
  rfl

theorem parseItem_ensureLeaf (waits : rest ≠ []) (token : Token X) :
    parseItem apply pair (stackOf apply pair rest) token =
      ensureLeaf (stackOf apply pair rest) token := by
  cases rest with
  | nil => exact absurd rfl waits
  | cons first rest => rw [stackOf, parseItem]

theorem parseItem_operand (operand : ¬Infixed symbolmapstack input) :
    parseItem apply pair (.leaf (build apply pair t) (stackOf apply pair rest))
        (unpackInputItem symbolmapstack input) =
      quiet (.leaf (build apply pair (.apply t input)) (stackOf apply pair rest)) := by
  rw [unpackInputItem_operand operand, parseItem]
  rfl

theorem parseItem_bottom : parseItem apply pair (.leaf (build apply pair t) .bottomOfStack)
        (unpackInputItem symbolmapstack o.input) = quiet (stackOf apply pair [(t, o)]) := by
  rw [unpackInputItem_operator o, parseItem]
  · rfl
  · intro _ _ _ _ _ same
    cases same

theorem parseItem_above (tighter : p.right < o.left) :
    parseItem apply pair (.leaf (build apply pair t) (stackOf apply pair ((left, p) :: rest)))
        (unpackInputItem symbolmapstack o.input) =
      quiet (stackOf apply pair ((t, o) :: (left, p) :: rest)) := by
  rw [unpackInputItem_operator o, stackOf, parseItem, if_pos tighter]
  rfl

theorem parseItem_equal (equal : o.left = p.right) :
    parseItem apply pair (.leaf (build apply pair t) (stackOf apply pair ((left, p) :: rest)))
        (unpackInputItem symbolmapstack o.input) =
      (report ⟨o.input.sourceCodeRegion, .warning,
          "mixed left- and right-associative operators of same precedence"⟩ >>= fun _ =>
        parseItem apply pair
          (.leaf (build apply pair (.operate left p.input t)) (stackOf apply pair rest))
          (unpackInputItem symbolmapstack o.input)) := by
  rw [unpackInputItem_operator o, stackOf, parseItem, if_neg (by omega), if_pos equal]
  rfl

theorem parseItem_below (looser : o.left < p.right) :
    parseItem apply pair (.leaf (build apply pair t) (stackOf apply pair ((left, p) :: rest)))
        (unpackInputItem symbolmapstack o.input) = parseItem apply pair
        (.leaf (build apply pair (.operate left p.input t)) (stackOf apply pair rest))
        (unpackInputItem symbolmapstack o.input) := by
  rw [unpackInputItem_operator o, stackOf, parseItem, if_neg (by omega), if_neg (by omega)]
  rfl

def reduceAll : InfixExpressions.Tree (FixityItem X) → Pending symbolmapstack X →
    InfixExpressions.Tree (FixityItem X)
  | t, [] => t
  | t, (left, p) :: rest => reduceAll (.operate left p.input t) rest

theorem inorder_reduceAll : (reduceAll t rest).inorder = pendingInorder rest ++ t.inorder := by
  induction rest generalizing t with
  | nil => rfl
  | cons first rest ih =>
    rw [reduceAll, ih]
    simp [Tree.inorder, pendingInorder]

theorem finish_leaf (err : SourceCodeRegion) :
    finish apply pair (.leaf (build apply pair t) (stackOf apply pair rest)) err =
      quiet (build apply pair (reduceAll t rest)) := by
  induction rest generalizing t with
  | nil => rw [stackOf, finish, reduceAll]
  | cons first rest ih =>
    rw [stackOf, finish]
    exact @ih (.operate first.1 first.2.input t)

theorem finish_operator (err : SourceCodeRegion) :
    finish apply pair (stackOf apply pair ((t, o) :: rest)) err =
      .ok (build apply pair (reduceAll (.apply t o.input) rest), [⟨err, .error,
        "expression or pattern ends with infix identifier \"" ++ o.symbol.name ++ "\""⟩]) := by
  rw [stackOf, finish]
  exact bind_of_ok rfl (finish_leaf (t := .apply t o.input) err)

theorem endloc_quiet {items : List (FixityItem X)} (nonempty : items ≠ []) :
    ∃ err, endloc items = quiet err := by
  fun_induction endloc items with
  | case1 last => exact ⟨_, rfl⟩
  | case2 first later more ih => exact ih more
  | case3 => exact absurd rfl nonempty

theorem parseItem_operator (o : Operator symbolmapstack X) : ∃ left rest' messages,
      parseItem apply pair (.leaf (build apply pair t) (stackOf apply pair rest))
          (unpackInputItem symbolmapstack o.input) =
        .ok (stackOf apply pair ((left, o) :: rest'), messages) ∧
      pendingInorder rest' ++ left.inorder = pendingInorder rest ++ t.inorder := by
  induction rest generalizing t with
  | nil => exact ⟨t, [], [], parseItem_bottom, rfl⟩
  | cons first rest ih =>
    obtain ⟨left, p⟩ := first
    obtain ⟨left', rest', messages, ended, inorder⟩ := @ih (.operate left p.input t)
    have inorder' : pendingInorder rest' ++ left'.inorder =
        pendingInorder ((left, p) :: rest) ++ t.inorder := by
      rw [inorder]
      simp [Tree.inorder, pendingInorder]
    rcases Int.lt_trichotomy o.left p.right with looser | equal | tighter
    · refine ⟨left', rest', messages, ?_, inorder'⟩
      rw [parseItem_below looser]
      exact ended
    · exact ⟨left', rest', _, (parseItem_equal equal).trans (bind_of_ok rfl ended), inorder'⟩
    · exact ⟨t, (left, p) :: rest, [], parseItem_above tighter, rfl⟩

def Recovers (apply pair : X → X → X) (result : Reporting String Message X)
    (read : List (FixityItem X)) (shaped : Prop) : Prop :=
  ∃ tree messages, result = .ok (build apply pair tree, messages) ∧ tree.inorder = read ∧
    (¬shaped → ∃ message ∈ messages, message.severity = .error)

section Recovery

variable {α : Type} {x : Reporting String Message α} {f : α → Reporting String Message X} {a : α}
  {messages : List Message} {read : List (FixityItem X)} {shaped shaped' : Prop}

theorem Recovers.after (recovers : Recovers apply pair (f a) read shaped)
    (first : x = .ok (a, messages)) (implies : shaped → shaped') :
    Recovers apply pair (x >>= f) read shaped' := by
  obtain ⟨tree, messages', ended, inorder, reported⟩ := recovers
  refine ⟨tree, messages ++ messages', bind_of_ok first ended, inorder, ?_⟩
  intro malformed
  obtain ⟨message, mem, isError⟩ := reported fun shaped => malformed (implies shaped)
  exact ⟨message, List.mem_append_right _ mem, isError⟩

theorem Recovers.afterError (recovers : Recovers apply pair (f a) read shaped)
    (first : x = .ok (a, messages)) (reported : ∃ message ∈ messages, message.severity = .error) :
    Recovers apply pair (x >>= f) read shaped' := by
  obtain ⟨tree, messages', ended, inorder, -⟩ := recovers
  obtain ⟨message, mem, isError⟩ := reported
  exact ⟨tree, messages ++ messages', bind_of_ok first ended, inorder, fun _ =>
    ⟨message, List.mem_append_left _ mem, isError⟩⟩

end Recovery

def Begins (operator : FixityItem X → Prop) : List (FixityItem X) → Prop
  | [] => False
  | first :: later => ¬operator first ∧ Continues operator later

theorem ensureLeaf_recovers {stack : PrecedenceStack X} {f : PrecedenceStack X →
    Reporting String Message X} {read : List (FixityItem X)} {later : List (FixityItem X)}
    (recovers : Recovers apply pair (f (.leaf input.item stack)) read
      (Continues (Infixed symbolmapstack) later)) :
    Recovers apply pair (ensureLeaf stack (unpackInputItem symbolmapstack input) >>= f) read
      (Begins (Infixed symbolmapstack) (input :: later)) := by
  by_cases isInfix : Infixed symbolmapstack input
  · obtain ⟨o, rfl⟩ := exists_operator isInfix
    exact recovers.afterError (ensureLeaf_operator stack o) ⟨_, List.mem_singleton_self _, rfl⟩
  · exact recovers.after (ensureLeaf_operand stack isInfix) fun continues => ⟨isInfix, continues⟩

theorem loop_recovers {allInputItems : List (FixityItem X)} (nonempty : allInputItems ≠ [])
    (items : List (FixityItem X)) : (∀ t (rest : Pending symbolmapstack X), Recovers apply pair
      (loop apply pair symbolmapstack allInputItems
        (.leaf (build apply pair t) (stackOf apply pair rest)) items)
      (pendingInorder rest ++ t.inorder ++ items) (Continues (Infixed symbolmapstack) items)) ∧
    (∀ rest : Pending symbolmapstack X, rest ≠ [] → Recovers apply pair
      (loop apply pair symbolmapstack allInputItems (stackOf apply pair rest) items)
      (pendingInorder rest ++ items) (Begins (Infixed symbolmapstack) items)) := by
  induction items with
  | nil =>
    obtain ⟨err, located⟩ := endloc_quiet nonempty
    constructor
    · intro t rest
      rw [loop, located, quiet_bind, finish_leaf, List.append_nil, ← inorder_reduceAll]
      exact ⟨_, [], rfl, rfl, fun malformed => absurd .nil malformed⟩
    · intro rest waits
      cases rest with
      | nil => exact absurd rfl waits
      | cons first rest =>
        rw [loop, located, quiet_bind, finish_operator]
        refine ⟨_, _, rfl, ?_, fun _ => ⟨_, List.mem_singleton_self _, rfl⟩⟩
        rw [inorder_reduceAll]
        simp [Tree.inorder, pendingInorder]
  | cons input later ih =>
    obtain ⟨afterOperand, afterOperator⟩ := ih
    constructor
    · intro t rest
      rw [loop]
      by_cases isInfix : Infixed symbolmapstack input
      · obtain ⟨o, rfl⟩ := exists_operator isInfix
        obtain ⟨left, rest', messages, parsed, inorder⟩ :=
          @parseItem_operator X symbolmapstack apply pair t rest o
        have recovers := afterOperator ((left, o) :: rest') (List.cons_ne_nil _ _)
        rw [pendingInorder, inorder, List.append_assoc, List.singleton_append] at recovers
        apply Recovers.after (f := (loop apply pair symbolmapstack allInputItems · later)) recovers
          parsed
        intro begins
        cases later with
        | nil => exact begins.elim
        | cons next later => exact .operator isInfix begins.1 begins.2
      · have recovers := afterOperand (.apply t input) rest
        rw [Tree.inorder, ← List.append_assoc, List.append_assoc, List.singleton_append]
          at recovers
        exact Recovers.after (f := (loop apply pair symbolmapstack allInputItems · later))
          recovers (parseItem_operand isInfix) (.operand isInfix)
    · intro rest waits
      rw [loop, parseItem_ensureLeaf waits]
      apply ensureLeaf_recovers
      have recovers := afterOperand (.atom input) rest
      rwa [Tree.inorder, List.append_assoc, List.singleton_append] at recovers

theorem parse_recovers {items : List (FixityItem X)} (nonempty : items ≠ []) :
    Recovers apply pair (parse apply pair items symbolmapstack) items
      (WellShaped (Infixed symbolmapstack) items) := by
  cases items with
  | nil => exact absurd rfl nonempty
  | cons first later =>
    have shaped : Begins (Infixed symbolmapstack) (first :: later) →
        WellShaped (Infixed symbolmapstack) (first :: later) :=
      fun begins => begins.2.wellShaped begins.1
    have recovers := @ensureLeaf_recovers X symbolmapstack apply pair first .bottomOfStack
      (loop apply pair symbolmapstack (first :: later) · later) _ later
      ((loop_recovers nonempty later).1 (.atom first) [])
    obtain ⟨tree, messages, ended, inorder, reported⟩ := recovers
    exact ⟨tree, messages, ended, inorder, fun malformed =>
      reported fun begins => malformed (shaped begins)⟩

end Stacks

def leftPrecedence (g : Grade) : Int :=
  match g.side with
  | .left => g.level + g.level
  | .right => g.level + g.level + 1

def rightPrecedence (g : Grade) : Int :=
  match g.side with
  | .left => g.level + g.level + 1
  | .right => g.level + g.level

section Precedences

variable {outer inner : Grade} (unmixed : outer.level = inner.level → outer.side = inner.side)
include unmixed

theorem leftOperand_precedence (fits : LeftOperand outer inner) :
    leftPrecedence outer ≤ leftPrecedence inner ∧ leftPrecedence outer < rightPrecedence inner := by
  obtain ⟨le, groups⟩ := fits
  rcases Int.lt_or_eq_of_le le with lt | same
  · unfold leftPrecedence rightPrecedence
    cases outer.side <;> cases inner.side <;> simp only <;> omega
  · have isLeft := groups same
    have isLeft' := (unmixed same).symm.trans isLeft
    unfold leftPrecedence rightPrecedence
    rw [isLeft, isLeft']
    simp only
    omega

theorem rightOperand_precedence (fits : RightOperand outer inner) :
    rightPrecedence outer ≤ rightPrecedence inner ∧
      rightPrecedence outer < leftPrecedence inner := by
  obtain ⟨le, groups⟩ := fits
  rcases Int.lt_or_eq_of_le le with lt | same
  · unfold leftPrecedence rightPrecedence
    cases outer.side <;> cases inner.side <;> simp only <;> omega
  · have isRight := groups same
    have isRight' := (unmixed same).symm.trans isRight
    unfold leftPrecedence rightPrecedence
    rw [isRight, isRight']
    simp only
    omega

end Precedences

variable {X : Type} {declared : Symbol → Option Declaration}

theorem Operator.graded (o : Operator (declaredTable declared) X) :
    ∃ g, declaredGrade declared o.input = some g ∧ o.left = leftPrecedence g ∧
      o.right = rightPrecedence g := by
  have found := o.found
  rw [findFixityBySymbol, declaredTable] at found
  rw [declaredGrade, o.named, Option.bind_some]
  cases isDeclared : declared o.symbol with
  | none => simp [isDeclared] at found
  | some declaration =>
    rw [isDeclared, Option.map_some] at found
    cases declaration with
    | nonfix => cases found
    | infixleft n =>
      simp only [Declaration.fixity, infixleft, Fixity.infixed.injEq] at found
      exact ⟨⟨n, .left⟩, rfl, found.1.symm, found.2.symm⟩
    | infixright n =>
      simp only [Declaration.fixity, infixright, Fixity.infixed.injEq] at found
      exact ⟨⟨n, .right⟩, rfl, found.1.symm, found.2.symm⟩

inductive Spine : InfixExpressions.Tree (FixityItem X) → Pending (declaredTable declared) X →
    InfixExpressions.Tree (FixityItem X) → Pending (declaredTable declared) X → Prop
  | all {t rest} : Spine t rest t rest
  | down {left right t' rest rest'} (o : Operator (declaredTable declared) X) :
      Spine right ((left, o) :: rest) t' rest' → Spine (.operate left o.input right) rest t' rest'

section Spines

variable {apply pair : X → X → X} {t t' left right : InfixExpressions.Tree (FixityItem X)}
  {rest rest' : Pending (declaredTable declared) X}

theorem Spine.reduceAll_eq (spine : Spine t rest t' rest') :
    reduceAll t' rest' = reduceAll t rest := by
  induction spine with
  | all => rfl
  | down o _ ih => exact ih

theorem Spine.parseItem_eq (spine : Spine t rest t' rest')
    (resolved : Resolved (declaredGrade declared) t)
    (unmixed : Unmixed (declaredGrade declared) t.inorder) (o : Operator (declaredTable declared) X)
    (looser : ∀ g ∈ t.root (declaredGrade declared), o.left < rightPrecedence g) :
    parseItem apply pair (.leaf (build apply pair t') (stackOf apply pair rest'))
        (unpackInputItem (declaredTable declared) o.input) =
      parseItem apply pair (.leaf (build apply pair t) (stackOf apply pair rest))
        (unpackInputItem (declaredTable declared) o.input) := by
  induction spine with
  | all => rfl
  | @down left right t' rest rest' p _ ih =>
    cases resolved with
    | @operate _ _ _ outer isOuter resolvedLeft _ resolvedRight rightFits =>
      obtain ⟨g, isGrade, -, isRight⟩ := p.graded
      have same : g = outer := Option.some.inj (isGrade.symm.trans isOuter)
      have below : o.left < rightPrecedence g := looser g isGrade
      rw [ih resolvedRight, parseItem_below]
      · rw [isRight]
        exact below
      · intro q mem q' mem'
        exact unmixed q (by simp [Tree.inorder, mem]) q' (by simp [Tree.inorder, mem'])
      · intro inner isRoot
        obtain ⟨q, mem, isInner⟩ := resolvedRight.root_mem isRoot
        rw [same] at below
        refine Int.lt_of_lt_of_le below (rightOperand_precedence ?_ (rightFits inner isRoot)).1
        exact unmixed p.input (by simp [Tree.inorder]) q (by simp [Tree.inorder, mem]) outer
          isOuter inner isInner

def resume (apply pair : X → X → X) (symbolmapstack : Symbolmapstack)
    (allInputItems : List (FixityItem X)) (stack : PrecedenceStack X) :
    List (FixityItem X) → Reporting String Message X
  | [] => fail "precedence: parse"
  | input :: later => do
      let stack ← ensureLeaf stack (unpackInputItem symbolmapstack input)
      loop apply pair symbolmapstack allInputItems stack later

theorem parse_eq_resume (symbolmapstack : Symbolmapstack) (items : List (FixityItem X)) :
    parse apply pair items symbolmapstack =
      resume apply pair symbolmapstack items .bottomOfStack items := by
  cases items <;> rfl

theorem loop_eq_resume {symbolmapstack : Symbolmapstack} {rest : Pending symbolmapstack X}
    {allInputItems items : List (FixityItem X)} (waits : rest ≠ []) (nonempty : items ≠ []) :
    loop apply pair symbolmapstack allInputItems (stackOf apply pair rest) items =
      resume apply pair symbolmapstack allInputItems (stackOf apply pair rest) items := by
  cases items with
  | nil => exact absurd rfl nonempty
  | cons input later => rw [loop, parseItem_ensureLeaf waits, resume]

theorem operand_of_grade {input : FixityItem X} (operand : declaredGrade declared input = none) :
    ¬Infixed (declaredTable declared) input := by
  rw [infixed_declaredTable, operand]
  exact fun different => different rfl

theorem inorder_ne_nil : t.inorder ≠ [] := by
  cases t <;> simp [Tree.inorder]

theorem resume_tree {allInputItems : List (FixityItem X)}
    (resolved : Resolved (declaredGrade declared) t)
    (unmixed : Unmixed (declaredGrade declared) t.inorder)
    (fits : ∀ g ∈ t.root (declaredGrade declared), ∀ waiting ∈ rest.head?,
      waiting.2.right < leftPrecedence g) : ∃ t' rest', Spine t rest t' rest' ∧ ∀ later,
      resume apply pair (declaredTable declared) allInputItems (stackOf apply pair rest)
          (t.inorder ++ later) = loop apply pair (declaredTable declared) allInputItems
          (.leaf (build apply pair t') (stackOf apply pair rest')) later := by
  induction resolved generalizing rest with
  | @atom input operand =>
    refine ⟨_, _, .all, fun later => ?_⟩
    rw [Tree.inorder, List.singleton_append, resume,
      ensureLeaf_operand _ (operand_of_grade operand), quiet_bind]
    rfl
  | @apply function input resolved isTight operand ih =>
    obtain ⟨t', rest', spine, read⟩ := @ih rest
      (fun p mem q mem' => unmixed p (by simp [Tree.inorder, mem]) q (by simp [Tree.inorder, mem']))
      (by rw [isTight]; intro g none; cases none)
    cases spine with
    | all =>
      refine ⟨_, _, .all, fun later => ?_⟩
      rw [Tree.inorder, List.append_assoc, read, List.singleton_append, loop,
        parseItem_operand (operand_of_grade operand), quiet_bind]
    | down o _ =>
      cases resolved with
      | operate isOperator _ _ _ _ =>
        rw [Tree.root, isOperator] at isTight
        cases isTight
  | @operate left input right outer isOuter resolvedLeft leftFits resolvedRight rightFits
      ihLeft ihRight =>
      have isInfix : Infixed (declaredTable declared) input := by
        rw [infixed_declaredTable, isOuter]
        simp
      obtain ⟨o, rfl⟩ := exists_operator isInfix
      obtain ⟨g, isGrade, isLeft, isRight⟩ := o.graded
      have same : g = outer := Option.some.inj (isGrade.symm.trans isOuter)
      subst same
      have unmixedLeft : Unmixed (declaredGrade declared) left.inorder := fun p mem q mem' =>
        unmixed p (by simp [Tree.inorder, mem]) q (by simp [Tree.inorder, mem'])
      have unmixedRight : Unmixed (declaredGrade declared) right.inorder := fun p mem q mem' =>
        unmixed p (by simp [Tree.inorder, mem]) q (by simp [Tree.inorder, mem'])
      have leftPrecedences {inner : Grade} (isRoot : inner ∈ left.root (declaredGrade declared)) :
          leftPrecedence g ≤ leftPrecedence inner ∧ leftPrecedence g < rightPrecedence inner := by
        obtain ⟨p, mem, isInner⟩ := resolvedLeft.root_mem isRoot
        exact leftOperand_precedence (unmixed o.input (by simp [Tree.inorder]) p
          (by simp [Tree.inorder, mem]) g isGrade inner isInner) (leftFits inner isRoot)
      have rightPrecedences {inner : Grade}
          (isRoot : inner ∈ right.root (declaredGrade declared)) :
          rightPrecedence g ≤ rightPrecedence inner ∧ rightPrecedence g < leftPrecedence inner := by
        obtain ⟨p, mem, isInner⟩ := resolvedRight.root_mem isRoot
        exact rightOperand_precedence (unmixed o.input (by simp [Tree.inorder]) p
          (by simp [Tree.inorder, mem]) g isGrade inner isInner) (rightFits inner isRoot)
      obtain ⟨t', rest', spine, read⟩ := @ihLeft rest unmixedLeft fun inner isRoot waiting mem =>
        Int.lt_of_lt_of_le (fits g isGrade waiting mem) (leftPrecedences isRoot).1
      obtain ⟨t'', rest'', spine', read'⟩ := @ihRight ((left, o) :: rest) unmixedRight
        fun inner isRoot waiting mem => by
          cases mem
          rw [isRight]
          exact (rightPrecedences isRoot).2
      refine ⟨t'', rest'', .down o spine', fun later => ?_⟩
      have pushed : parseItem apply pair (.leaf (build apply pair left) (stackOf apply pair rest))
          (unpackInputItem (declaredTable declared) o.input) =
            quiet (stackOf apply pair ((left, o) :: rest)) := by
        cases rest with
        | nil => exact parseItem_bottom
        | cons waiting rest =>
          apply parseItem_above
          rw [isLeft]
          exact fits g isGrade waiting rfl
      have reduced := @Spine.parseItem_eq X declared apply pair _ _ _ _ spine resolvedLeft unmixedLeft o
        fun inner isRoot => isLeft.symm ▸ (leftPrecedences isRoot).2
      rw [Tree.inorder, List.append_assoc, read, List.cons_append, loop, reduced, pushed, quiet_bind,
        loop_eq_resume (List.cons_ne_nil _ _) (by simp [inorder_ne_nil]), read']

theorem parse_inorder (resolved : Resolved (declaredGrade declared) t)
    (unmixed : Unmixed (declaredGrade declared) t.inorder) :
    parse apply pair t.inorder (declaredTable declared) = quiet (build apply pair t) := by
  obtain ⟨t', rest', spine, read⟩ := @resume_tree X declared apply pair t [] t.inorder resolved
    unmixed fun g isRoot waiting none => nomatch none
  obtain ⟨err, located⟩ := endloc_quiet (@inorder_ne_nil X t)
  rw [parse_eq_resume]
  have := read []
  rw [List.append_nil, stackOf, loop, located, quiet_bind, finish_leaf, spine.reduceAll_eq] at this
  exact this

end Spines

theorem parse_resolves (apply pair : X → X → X) :
    (∀ (declared : Symbol → Option Declaration) (items : List (FixityItem X)),
      WellShaped (Infixed (declaredTable declared)) items → Unmixed (declaredGrade declared) items →
      ∃ tree, (∀ t, Resolved (declaredGrade declared) t ∧ t.inorder = items ↔ t = tree) ∧
        parse apply pair items (declaredTable declared) = quiet (build apply pair tree)) ∧
    (∀ (symbolmapstack : Symbolmapstack) (items : List (FixityItem X)), items ≠ [] →
      ∃ tree messages,
        parse apply pair items symbolmapstack = .ok (build apply pair tree, messages) ∧
        tree.inorder = items ∧ (¬WellShaped (Infixed symbolmapstack) items →
          ∃ message ∈ messages, message.severity = .error)) := by
  constructor
  · intro declared items shaped unmixed
    have sameShape : Infixed (declaredTable declared) = (declaredGrade (X := X) declared · ≠ none) := by
      funext input
      exact propext infixed_declaredTable
    rw [sameShape] at shaped
    obtain ⟨tree, unique⟩ := shaped.resolves unmixed
    obtain ⟨resolved, rfl⟩ := (unique tree).mpr rfl
    exact ⟨tree, unique, parse_inorder resolved unmixed⟩
  · intro symbolmapstack items nonempty
    exact parse_recovers nonempty

theorem parse_resolves_minus :
    let apply := fun f a => "(" ++ f ++ " " ++ a ++ ")"
    let pair := fun a b => a ++ ", " ++ b
    let declared : Symbol → Option Declaration := fun _ => some (.infixleft 6)
    let items : List (FixityItem String) :=
      [⟨"a", (0, 1), none⟩, ⟨"-", (1, 2), some ⟨"-"⟩⟩, ⟨"b", (2, 3), none⟩]
    (∃ tree, (∀ t, Resolved (declaredGrade declared) t ∧ t.inorder = items ↔ t = tree) ∧
      parse apply pair items (declaredTable declared) = quiet (build apply pair tree)) ∧
    ∃ tree messages,
      parse apply pair items.tail (declaredTable declared) =
        .ok (build apply pair tree, messages) ∧
      tree.inorder = items.tail ∧
      (¬WellShaped (Infixed (declaredTable declared)) items.tail →
        ∃ message ∈ messages, message.severity = .error) := by
  intro apply pair declared items
  constructor
  · apply (parse_resolves apply pair).1 declared items
    · constructor
      · exact ⟨_, rfl, fun isInfix => isInfix rfl⟩
      · exact ⟨_, rfl, fun isInfix => isInfix rfl⟩
      · refine .cons_cons (fun both => both.1 rfl) (.cons_cons (fun both => both.2 rfl) ?_)
        exact List.isChain_singleton _
    · intro o memO p memP g isG h isH _
      have left {input : FixityItem String} {g : Grade}
          (isGrade : declaredGrade declared input = some g) : g.side = .left := by
        unfold declaredGrade at isGrade
        cases named : input.fixity with
        | none => simp [named] at isGrade
        | some symbol =>
          simp [named, declared, Declaration.grade] at isGrade
          rw [← isGrade]
      rw [left isG, left isH]
  · exact (parse_resolves apply pair).2 (declaredTable declared) items.tail (by simp [items])

end Mythryl.ResolveOperatorPrecedence
