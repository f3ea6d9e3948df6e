import Mythryl.Unify.Keeping

/-! # Runs of calls of `unify_types` -/

namespace Mythryl.UnifyTypes
open Relation RaisingState

inductive Drops : Ty → Ty → Prop
  | arg {arity : Nat} {body t : Ty} {args : List Ty} : t ∈ args →
      ¬ReflTransGen Sees (.typconType (.definedTyp arity body) args) t →
      Drops (.typconType (.definedTyp arity body) args) t

def Meets (store : Store) (t1 t2 u : Ty) : Prop :=
  ReflTransGen (Follow Sees store) t1 u ∨ ReflTransGen (Follow Sees store) t2 u

/-- No variable that a call looks at and may resolve is in an argument that an abbreviation drops.
The bodies of abbreviations have no variables, and constructors as many arguments as they take. -/
structure Unhidden (store : Store) (t1 t2 : Ty) : Prop where
  body : ∀ u, Meets store t1 t2 u → ClosedBody u
  fits : ∀ u, Meets store t1 t2 u → Fits u
  apart : ∀ c u x, bindable (store c) = true → Meets store t1 t2 (.typeVariableRef c) →
    Meets store t1 t2 u → Drops u x → ¬Reaches Part store x c

def Call (isLiteralType : LiteralKind → Ty → Bool) (store store' : Store) : Prop :=
  ∃ fuel t1 t2, Unhidden store t1 t2 ∧
    (outcome (unifyTypes isLiteralType fuel t1 t2) store).2 = store'

section Calls

variable {store store' : Store} {t1 t2 : Ty} {isLiteralType : LiteralKind → Ty → Bool}

theorem drops_of_part {t u : Ty} (part : Part t u) (unseen : ¬ReflTransGen Sees t u) :
    Drops t u := by
  cases part with
  | body => exact (unseen (.single .body)).elim
  | @arg typ _ _ mem =>
    cases typ with
    | definedTyp arity body => exact .arg mem unseen
    | _ => exact (unseen (.single (.arg rfl mem))).elim

theorem Unhidden.clear (unhidden : Unhidden store t1 t2) :
    ∃ hidden, Clear Part store hidden t1 ∧ Clear Part store hidden t2 := by
  have fair : ∀ u, Meets store t1 t2 u →
      Fair Part store { c | ∃ u x, Meets store t1 t2 u ∧ Drops u x ∧ Reaches Part store x c } u := by
    intro u meets
    constructor
    · exact unhidden.body u meets
    · exact unhidden.fits u meets
    · rintro c rfl free ⟨u, x, meetsU, drops, reaches⟩
      exact unhidden.apart c u x free meets meetsU drops reaches
    · exact fun x part unseen c reaches _ => ⟨u, x, meets, drops_of_part part unseen, reaches⟩
  exact ⟨_, fun u path => fair u (.inl path), fun u path => fair u (.inr path)⟩

theorem Call.keeps (literal : LiteralTypes isLiteralType) (call : Call isLiteralType store store')
    (acyclic : Acyclic Part store) : Acyclic Part store' ∧ ∀ c, Flags (store c) (store' c) := by
  obtain ⟨fuel, t1, t2, unhidden, rfl⟩ := call
  obtain ⟨hidden, clear1, clear2⟩ := unhidden.clear
  let look : Outlook := ⟨Part, covers_part, hidden, Set.univ, Set.univ⟩
  have within (t : Ty) : Within Part Set.univ t := fun _ _ => trivial
  have base : Base look Set.univ store :=
    ⟨acyclic, fun _ _ t _ => within t, fun _ _ _ => trivial, fun _ _ => trivial⟩
  have run := unifyTypes_sound literal fuel Set.univ store t1 t2 base ⟨within t1, clear1⟩
    ⟨within t2, clear2⟩
  exact ⟨run.outcome.acyclic acyclic, run.outcome.upheld.flags⟩

theorem Call.acyclic (literal : LiteralTypes isLiteralType) (call : Call isLiteralType store store')
    (acyclic : Acyclic Part store) : Acyclic Part store' :=
  (call.keeps literal acyclic).1

theorem acyclic_after_calls (literal : LiteralTypes isLiteralType) (acyclic : Acyclic Part store)
    (calls : ReflTransGen (Call isLiteralType) store store') : Acyclic Part store' := by
  induction calls with
  | refl => exact acyclic
  | tail _ call ih => exact call.acyclic literal ih

/-- Calls only add to what is known of a variable: it stays resolved once it is, equality stays
demanded, and its nesting never grows. -/
theorem flags_after_calls (literal : LiteralTypes isLiteralType) (acyclic : Acyclic Part store)
    (calls : ReflTransGen (Call isLiteralType) store store') (c : Cell) :
    Flags (store c) (store' c) := by
  suffices kept : Acyclic Part store' ∧ ∀ c, Flags (store c) (store' c) from kept.2 c
  induction calls with
  | refl => exact ⟨acyclic, fun c => .refl _⟩
  | tail _ call ih =>
    obtain ⟨acyclic', flags⟩ := call.keeps literal ih.1
    exact ⟨acyclic', fun c => (ih.2 c).trans (flags c)⟩

end Calls

def intRecord : PlainTypRecord := ⟨0, 0, .yes⟩

def listRecord : PlainTypRecord := ⟨1, 1, .data⟩

def isInt : LiteralKind → Ty → Bool
  | .int, .typconType (.plainTyp record) [] => record = intRecord
  | _, _ => false

def phantom (t : Ty) : Ty := .typconType (.definedTyp 1 (.typconType (.plainTyp intRecord) [])) [t]

def listOf (t : Ty) : Ty :=
  .typconType (.definedTyp 1 (.typconType (.plainTyp listRecord) [.typeSchemeArg 0])) [t]

def listOfSeen : List Ty :=
  [.typeVariableRef 0, .typeVariableRef 1, listOf (.typeVariableRef 1),
    .typconType (.plainTyp listRecord) [.typeVariableRef 1]]

def allMeta : Store := fun _ => .metaTypeVariable false 0

theorem allMeta_acyclic : Acyclic Part allMeta := by
  intro c cycle
  obtain ⟨t, step, _⟩ := TransGen.head'_iff.mp cycle
  rw [follow_variable (part_variable c)] at step
  cases step

theorem resolved_to_itself : Acyclic Part allMeta ∧
    (outcome (unifyTypes isInt 8 (.typeVariableRef 0) (phantom (.typeVariableRef 0))) allMeta).1 =
      .ok () ∧
    ¬Acyclic Part (outcome (unifyTypes isInt 8 (.typeVariableRef 0) (phantom (.typeVariableRef 0)))
      allMeta).2 := by
  refine ⟨allMeta_acyclic, rfl, fun acyclic => acyclic 0 ?_⟩
  have target : phantom (.typeVariableRef 0) ∈ targets ((outcome (unifyTypes isInt 8
      (.typeVariableRef 0) (phantom (.typeVariableRef 0))) allMeta).2 0) := List.mem_singleton.mpr rfl
  exact .head (.target target) (.single (.into (.arg List.mem_cons_self)))

theorem isInt_literal : LiteralTypes isInt := by
  intro kind t isLiteral
  unfold isInt at isLiteral
  split at isLiteral
  · cases of_decide_eq_true isLiteral
    exact ⟨rfl, fun _ => rfl⟩
  · cases isLiteral

theorem listOf_follow {t u : Ty} (mem : t ∈ listOfSeen) (step : Follow Sees allMeta t u) :
    u ∈ listOfSeen := by
  cases step with
  | target target => cases target
  | into sees =>
    simp only [listOfSeen, listOf, List.mem_cons, List.not_mem_nil, or_false] at mem
    rcases mem with rfl | rfl | rfl | rfl
    · cases sees
    · cases sees
    · cases sees with
      | arg plain _ => cases plain
      | reduct => simp [listOfSeen, reduct, inst, instAll]
    · cases sees with
      | arg _ arg =>
        cases List.mem_singleton.mp arg
        simp [listOfSeen]

theorem listOf_unhidden : Unhidden allMeta (.typeVariableRef 0) (listOf (.typeVariableRef 1)) := by
  have meets : ∀ u, Meets allMeta (.typeVariableRef 0) (listOf (.typeVariableRef 1)) u →
      u ∈ listOfSeen := by
    intro u either
    have inside {t : Ty} (mem : t ∈ listOfSeen) (path : ReflTransGen (Follow Sees allMeta) t u) :=
      Redirection.stays (P := { t | t ∈ listOfSeen }) (fun _ mem _ => listOf_follow mem) mem path
    rcases either with path | path
    · exact inside (by simp [listOfSeen]) path
    · exact inside (by simp [listOfSeen]) path
  have seen : ReflTransGen Sees (listOf (.typeVariableRef 1)) (.typeVariableRef 1) :=
    .head .reduct (.single (.arg rfl List.mem_cons_self))
  constructor
  · intro u meets'
    have mem := meets u meets'
    simp only [listOfSeen, List.mem_cons, List.not_mem_nil, or_false] at mem
    rcases mem with rfl | rfl | rfl | rfl
    · trivial
    · trivial
    · intro c occurs
      obtain ⟨t, mem, occurs'⟩ := occurs_typcon occurs
      cases List.mem_singleton.mp mem
      rcases occurs'.cases_head with same | ⟨t, part, _⟩
      · cases same
      · cases part
    · trivial
  · intro u meets'
    have mem := meets u meets'
    simp only [listOfSeen, List.mem_cons, List.not_mem_nil, or_false] at mem
    rcases mem with rfl | rfl | rfl | rfl
    · trivial
    · trivial
    · trivial
    · rfl
  · intro c u x _ _ meets' drops
    have mem := meets u meets'
    simp only [listOfSeen, List.mem_cons, List.not_mem_nil, or_false] at mem
    rcases mem with rfl | rfl | rfl | rfl
    · cases drops
    · cases drops
    · cases drops with
      | arg arg unseen =>
        cases List.mem_singleton.mp arg
        exact (unseen seen).elim
    · cases drops

theorem acyclic_after_listOf :
    (outcome (unifyTypes isInt 8 (.typeVariableRef 0) (listOf (.typeVariableRef 1))) allMeta).1 =
      .ok () ∧
    Acyclic Part (outcome (unifyTypes isInt 8 (.typeVariableRef 0) (listOf (.typeVariableRef 1)))
      allMeta).2 :=
  ⟨rfl, acyclic_after_calls isInt_literal allMeta_acyclic
    (.single ⟨8, .typeVariableRef 0, listOf (.typeVariableRef 1), listOf_unhidden, rfl⟩)⟩

theorem flags_after_listOf : Flags (allMeta 0) ((outcome (unifyTypes isInt 8 (.typeVariableRef 0)
    (listOf (.typeVariableRef 1))) allMeta).2 0) :=
  flags_after_calls isInt_literal allMeta_acyclic
    (.single ⟨8, .typeVariableRef 0, listOf (.typeVariableRef 1), listOf_unhidden, rfl⟩) 0

/-! # Equality and nesting survive unification -/

def WellFormed (store : Store) (t : Ty) : Prop :=
  ∀ u, ReflTransGen (Follow Sees store) t u → ClosedBody u ∧ Fits u

def undemanding (store : Store) : Set Cell :=
  { c | isIncomplete (store c) = true ∧ eqOf (store c) = false }

def overloadedVariables (store : Store) : Set Cell := { c | isOverloaded (store c) = true }

section Calls

variable {store store' : Store} {t t1 t2 : Ty} {isLiteralType : LiteralKind → Ty → Bool}
  {fuel : Nat} {v : Cell}

theorem WellFormed.clear (wellFormed : WellFormed store t) : Clear Sees store ∅ t := by
  intro u path
  obtain ⟨body, fits⟩ := wellFormed u path
  exact ⟨body, fits, fun _ _ _ => id, fun x sees unseen => (unseen (.single sees)).elim⟩

theorem upheld_after_call (literal : LiteralTypes isLiteralType) (acyclic : Acyclic Sees store)
    (wellFormed1 : WellFormed store t1) (wellFormed2 : WellFormed store t2) :
    Upheld (undemanding store) (overloadedVariables store) store
      (outcome (unifyTypes isLiteralType fuel t1 t2) store).2 := by
  let look : Outlook := ⟨Sees, covers_sees, ∅, undemanding store, overloadedVariables store⟩
  have within (t : Ty) : Within Sees Set.univ t := fun _ _ => trivial
  have base : Base look Set.univ store :=
    ⟨acyclic, fun _ _ t _ => within t, fun _ incomplete no => ⟨incomplete, no⟩, fun _ is => is⟩
  have run := unifyTypes_sound literal fuel Set.univ store t1 t2 base
    ⟨within t1, wellFormed1.clear⟩ ⟨within t2, wellFormed2.clear⟩
  exact run.outcome.upheld

theorem demands_met_after_call (literal : LiteralTypes isLiteralType)
    (acyclic : Acyclic Sees store) (wellFormed1 : WellFormed store t1)
    (wellFormed2 : WellFormed store t2)
    (returns : outcome (unifyTypes isLiteralType fuel t1 t2) store = (.ok (), store'))
    (before : compared (store v) = true) (resolved : store' v = .resolvedTypeVariable t) :
    (eqOf (store v) = true → Admits (undemanding store) store' t) ∧
      (∀ n, nestingOf (store v) = some n → Tame (overloadedVariables store) store' →
        Nested n store' t) := by
  have upheld := @upheld_after_call store t1 t2 isLiteralType fuel literal acyclic wellFormed1
    wellFormed2
  rw [returns] at upheld
  dsimp only at upheld
  have unresolved := isResolved_of_bindable (bindable_of_compared before)
  have now : isResolved (store' v) = true := by
    rw [resolved]
    rfl
  constructor
  · intro demands
    have admits := upheld.boundEq v unresolved now demands
    apply admits.follow
    apply Follow.target
    rw [eqView, resolved]
    simp [isIncomplete, targets]
  · intro n is tame
    have nested := upheld.boundNesting tame v n unresolved now is
    apply nested.follow
    apply Follow.target
    simp [resolved, targets]

end Calls

def pair (t1 t2 : Ty) : Ty := .typconType (.recordTyp ["1", "2"]) [t1, t2]

def plainList (t : Ty) : Ty := .typconType (.plainTyp listRecord) [t]

/-- Of the first variable's nesting of `1` nothing is left when the second is resolved. -/
def withOverloaded : Store
  | 0 => .metaTypeVariable false 1
  | 1 => .overloadedTypeVariable false
  | _ => .metaTypeVariable false 5

theorem acyclic_of_no_targets {store : Store} (none : ∀ c, targets (store c) = []) :
    Acyclic Sees store := by
  intro c cycle
  obtain ⟨t, step, _⟩ := TransGen.head'_iff.mp cycle
  rw [follow_variable (sees_variable c), none] at step
  cases step

theorem nesting_lost : Acyclic Sees withOverloaded ∧
    (outcome (unifyTypes isInt 8 (pair (.typeVariableRef 0) (.typeVariableRef 1))
      (pair (.typeVariableRef 1) (plainList (.typeVariableRef 2)))) withOverloaded).1 = .ok () ∧
    (outcome (unifyTypes isInt 8 (pair (.typeVariableRef 0) (.typeVariableRef 1))
      (pair (.typeVariableRef 1) (plainList (.typeVariableRef 2)))) withOverloaded).2 0 =
        .resolvedTypeVariable (.typeVariableRef 1) ∧
    ¬Nested 1 (outcome (unifyTypes isInt 8 (pair (.typeVariableRef 0) (.typeVariableRef 1))
      (pair (.typeVariableRef 1) (plainList (.typeVariableRef 2)))) withOverloaded).2
        (.typeVariableRef 1) := by
  refine ⟨acyclic_of_no_targets fun c => ?_, rfl, rfl, fun nested => ?_⟩
  · unfold withOverloaded
    split <;> rfl
  · have path : Seen (outcome (unifyTypes isInt 8 (pair (.typeVariableRef 0) (.typeVariableRef 1))
        (pair (.typeVariableRef 1) (plainList (.typeVariableRef 2)))) withOverloaded).2
          (.typeVariableRef 1) 2 :=
      .head (.target (List.mem_singleton.mpr rfl))
        (.single (.into (.arg rfl List.mem_cons_self)))
    exact absurd (nested _ path 5 rfl) (by decide)

def withEquality : Store
  | 0 => .metaTypeVariable true 1
  | _ => .metaTypeVariable false 5

theorem withEquality_no_targets (c : Cell) : targets (withEquality c) = [] := by
  unfold withEquality
  split <;> rfl

theorem pair_follow {t u : Ty} (path : ReflTransGen (Follow Sees withEquality) t u)
    (start : t ∈ [.typeVariableRef 0, .typeVariableRef 1, .typeVariableRef 2,
      pair (.typeVariableRef 1) (.typeVariableRef 2)]) :
    u ∈ [.typeVariableRef 0, .typeVariableRef 1, .typeVariableRef 2,
      pair (.typeVariableRef 1) (.typeVariableRef 2)] := by
  induction path with
  | refl => exact start
  | tail _ step ih =>
    cases step with
    | target target =>
      rw [withEquality_no_targets] at target
      cases target
    | into sees =>
      simp only [pair, List.mem_cons, List.not_mem_nil, or_false] at ih
      rcases ih with rfl | rfl | rfl | rfl
      · cases sees
      · cases sees
      · cases sees
      · cases sees with
        | arg _ arg =>
          simp only [List.mem_cons, List.not_mem_nil, or_false] at arg
          rcases arg with rfl | rfl
          · simp
          · simp

theorem pair_wellFormed {t : Ty} (start : t ∈ [.typeVariableRef 0, .typeVariableRef 1,
    .typeVariableRef 2, pair (.typeVariableRef 1) (.typeVariableRef 2)]) :
    WellFormed withEquality t := by
  intro u path
  have mem := pair_follow path start
  simp only [pair, List.mem_cons, List.not_mem_nil, or_false] at mem
  rcases mem with rfl | rfl | rfl | rfl
  · exact ⟨trivial, trivial⟩
  · exact ⟨trivial, trivial⟩
  · exact ⟨trivial, trivial⟩
  · exact ⟨trivial, trivial⟩

theorem demands_met_by_pair : (outcome (unifyTypes isInt 8 (.typeVariableRef 0)
      (pair (.typeVariableRef 1) (.typeVariableRef 2))) withEquality).2 0 =
        .resolvedTypeVariable (pair (.typeVariableRef 1) (.typeVariableRef 2)) ∧
    Admits (undemanding withEquality) (outcome (unifyTypes isInt 8 (.typeVariableRef 0)
      (pair (.typeVariableRef 1) (.typeVariableRef 2))) withEquality).2
        (pair (.typeVariableRef 1) (.typeVariableRef 2)) :=
  ⟨rfl, (@demands_met_after_call withEquality _ _ (.typeVariableRef 0)
    (pair (.typeVariableRef 1) (.typeVariableRef 2)) isInt 8 0 isInt_literal
    (acyclic_of_no_targets withEquality_no_targets) (pair_wellFormed (by simp))
    (pair_wellFormed (by simp)) rfl rfl rfl).1 rfl⟩

end Mythryl.UnifyTypes
