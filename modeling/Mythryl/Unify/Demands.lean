import Mythryl.Unify.Reachability
import Mathlib.Data.Option.Basic

/-! # What variables demand of types -/

namespace Mythryl.UnifyTypes
open Relation

def eqOf : TypeVariable → Bool
  | .userTypeVariable _ eq _ | .metaTypeVariable eq _ => eq
  | .incompleteRecordTypeVariable _ eq _ | .overloadedTypeVariable eq => eq
  | .literalTypeVariable kind => literalIsEqualityKind kind
  | .resolvedTypeVariable _ | .typeVariableMark _ => true

def nestingOf : TypeVariable → Option Int
  | .userTypeVariable _ _ fnNesting | .metaTypeVariable _ fnNesting => some fnNesting
  | .incompleteRecordTypeVariable _ _ fnNesting => some fnNesting
  | _ => none

def isResolved : TypeVariable → Bool
  | .resolvedTypeVariable _ => true
  | _ => false

def isIncomplete : TypeVariable → Bool
  | .incompleteRecordTypeVariable .. => true
  | _ => false

def isOverloaded : TypeVariable → Bool
  | .overloadedTypeVariable _ => true
  | _ => false

def equalityTyp : Typ → Bool
  | .plainTyp record => record.eqtypeInfo = .yes ∨ record.eqtypeInfo = .chunk
  | .recordTyp _ | .definedTyp .. | .erroneousTyp => true
  | _ => false

def passesEquality : Typ → Bool
  | .plainTyp record => record.eqtypeInfo = .yes
  | .recordTyp _ => true
  | _ => false

inductive EqSees : Ty → Ty → Prop
  | arg {typ : Typ} {args : List Ty} {t : Ty} : passesEquality typ = true → t ∈ args →
      EqSees (.typconType typ args) t
  | reduct {arity : Nat} {body : Ty} {args : List Ty} :
      EqSees (.typconType (.definedTyp arity body) args) (reduct arity body args)
  | body {eqs : List Bool} {arity : Nat} {body : Ty} : EqSees (.typeSchemeType eqs arity body) body

def EqOk (store : Store) : Ty → Prop
  | .typeVariableRef c => eqOf (store c) = true
  | .typconType typ _ => equalityTyp typ = true
  | _ => True

def NestOk (store : Store) (n : Int) : Ty → Prop
  | .typeVariableRef c => ∀ m, nestingOf (store c) = some m → m ≤ n
  | _ => True

def Hereditary (into : Ty → Ty → Prop) (view : Store) (ok : Ty → Prop) (t : Ty) : Prop :=
  ∀ u, ReflTransGen (Follow into view) t u → ok u

open Classical in
noncomputable def eqView (lax : Set Cell) (store : Store) : Store := fun c =>
  if isIncomplete (store c) = true ∧ c ∈ lax then .typeVariableMark 0 else store c

/-- The type admits equality as far as it is determined, the known fields of `lax` records aside. -/
def Admits (lax : Set Cell) (store : Store) (t : Ty) : Prop :=
  Hereditary EqSees (eqView lax store) (EqOk store) t

def Nested (n : Int) (store : Store) (t : Ty) : Prop := Hereditary Sees store (NestOk store n) t

structure Flags (v w : TypeVariable) : Prop where
  eq : eqOf v = true → eqOf w = true
  nesting : ∀ m, nestingOf w = some m → ∃ n, nestingOf v = some n ∧ m ≤ n
  still : isResolved w = false → (nestingOf w).isSome = (nestingOf v).isSome
  resolved : isResolved v = true → isResolved w = true
  incomplete : isIncomplete w = true → isIncomplete v = true
  overloaded : isOverloaded w = true → isOverloaded v = true

/-- The variables in `overloaded` are resolved to other variables or to types without variables. -/
def Tame (overloaded : Set Cell) (store : Store) : Prop :=
  ∀ o ∈ overloaded, ∀ t, store o = .resolvedTypeVariable t →
    (∀ c, ¬Occurs Part t c) ∨ ∃ d, t = .typeVariableRef d

structure Upheld (lax overloaded : Set Cell) (store store' : Store) : Prop where
  flags : ∀ c, Flags (store c) (store' c)
  tame : Tame overloaded store' → Tame overloaded store
  admits : ∀ t, Admits lax store t → Admits lax store' t
  nested : Tame overloaded store' → ∀ n t, Nested n store t → Nested n store' t
  boundEq : ∀ c, isResolved (store c) = false → isResolved (store' c) = true →
    eqOf (store c) = true → Admits lax store' (.typeVariableRef c)
  boundNesting : Tame overloaded store' → ∀ c n, isResolved (store c) = false →
    isResolved (store' c) = true → nestingOf (store c) = some n → Nested n store' (.typeVariableRef c)

section Heredity

variable {into : Ty → Ty → Prop} {view view' : Store} {ok ok' : Ty → Prop} {t u : Ty} {v : Cell}

theorem Hereditary.here (h : Hereditary into view ok t) : ok t := h t .refl

theorem Hereditary.follow (h : Hereditary into view ok t) (step : Follow into view t u) :
    Hereditary into view ok u := fun x path => h x (.head step path)

theorem Hereditary.intro (here : ok t)
    (next : ∀ u, Follow into view t u → Hereditary into view ok u) : Hereditary into view ok t := by
  intro x path
  rcases path.cases_head with rfl | ⟨u, step, rest⟩
  · exact here
  · exact next u step x rest

theorem Hereditary.mono (h : Hereditary into view ok t) (weaker : ∀ u, ok u → ok' u) :
    Hereditary into view ok' t := fun x path => weaker x (h x path)

theorem Hereditary.of_paths (h : Hereditary into view ok t)
    (steps : ∀ a b, Follow into view' a b → ReflTransGen (Follow into view) a b)
    (weaker : ∀ u, ok u → ok' u) : Hereditary into view' ok' t := by
  intro x path
  have path' : ReflTransGen (Follow into view) t x := by
    induction path with
    | refl => exact .refl
    | tail _ step ih => exact ih.trans (steps _ _ step)
  exact weaker x (h x path')

theorem Hereditary.redirect (leaf : ∀ u, ¬into (.typeVariableRef v) u)
    (off : ∀ c ≠ v, targets (view' c) = targets (view c))
    (here : ok (.typeVariableRef v) → ∀ t ∈ targets (view' v), Hereditary into view ok t)
    (weaker : ∀ u, ok u → ok' u) (h : Hereditary into view ok t) : Hereditary into view' ok' t := by
  intro x path
  have there : Hereditary into view ok x := by
    induction path with
    | refl => exact h
    | @tail a b _ step ih =>
      by_cases at_ : a = .typeVariableRef v
      · subst at_
        rw [follow_variable leaf] at step
        exact here ih.here b step
      · apply ih.follow
        apply step.other
        rintro c rfl
        apply off c
        rintro rfl
        exact at_ rfl
  exact weaker x there.here

end Heredity

section Upholding

variable {store store' store'' : Store} {lax overloaded : Set Cell} {t u type ety : Ty}
  {c v : Cell} {typevar x y z : TypeVariable} {n m : Int}

theorem Flags.refl (v : TypeVariable) : Flags v v :=
  ⟨id, fun m is => ⟨m, is, le_rfl⟩, fun _ => rfl, id, id, id⟩

theorem isResolved_iff : isResolved x = true ↔ ∃ t, x = .resolvedTypeVariable t := by
  cases x <;> simp [isResolved]

theorem Flags.resolve (x : TypeVariable) (t : Ty) : Flags x (.resolvedTypeVariable t) :=
  ⟨fun _ => rfl, nofun, nofun, fun _ => rfl, nofun, nofun⟩

theorem Flags.trans (first : Flags x y) (then_ : Flags y z) : Flags x z where
  eq := then_.eq ∘ first.eq
  nesting m is := by
    obtain ⟨k, isY, le⟩ := then_.nesting m is
    obtain ⟨n, isX, le'⟩ := first.nesting k isY
    exact ⟨n, isX, le.trans le'⟩
  still no := by
    rw [then_.still no]
    apply first.still
    cases resolved : isResolved y with
    | false => rfl
    | true => cases (then_.resolved resolved).symm.trans no
  resolved := then_.resolved ∘ first.resolved
  incomplete := first.incomplete ∘ then_.incomplete
  overloaded := first.overloaded ∘ then_.overloaded

theorem EqOk.flags (flags : ∀ c, Flags (store c) (store' c)) (ok : EqOk store t) :
    EqOk store' t := by
  cases t with
  | typeVariableRef c => exact (flags c).eq ok
  | typconType typ args => exact ok
  | _ => trivial

theorem NestOk.flags (flags : ∀ c, Flags (store c) (store' c)) (ok : NestOk store n t) :
    NestOk store' n t := by
  cases t with
  | typeVariableRef c =>
    intro m is
    obtain ⟨k, was, le⟩ := (flags c).nesting m is
    exact le.trans (ok k was)
  | _ => trivial

theorem Nested.mono (nested : Nested m store t) (le : m ≤ n) : Nested n store t := by
  refine Hereditary.mono nested fun u ok => ?_
  cases u with
  | typeVariableRef c => exact fun k is => (ok k is).trans le
  | _ => trivial

theorem eqSees_variable (c : Cell) (t : Ty) : ¬EqSees (.typeVariableRef c) t := nofun

theorem sees_variable (c : Cell) (t : Ty) : ¬Sees (.typeVariableRef c) t := nofun

theorem Upheld.refl : Upheld lax overloaded store store where
  flags c := .refl _
  tame := id
  admits _ := id
  nested _ _ _ := id
  boundEq c no yes := by cases no.symm.trans yes
  boundNesting _ c n no yes := by cases no.symm.trans yes

theorem Upheld.trans (first : Upheld lax overloaded store store')
    (then_ : Upheld lax overloaded store' store'') : Upheld lax overloaded store store'' where
  flags c := (first.flags c).trans (then_.flags c)
  tame := first.tame ∘ then_.tame
  admits t := then_.admits t ∘ first.admits t
  nested tame n t := then_.nested tame n t ∘ first.nested (then_.tame tame) n t
  boundEq c no yes demands := by
    cases resolved : isResolved (store' c) with
    | true => exact then_.admits _ (first.boundEq c no resolved demands)
    | false => exact then_.boundEq c resolved yes ((first.flags c).eq demands)
  boundNesting tame c n no yes is := by
    cases resolved : isResolved (store' c) with
    | true => exact then_.nested tame n _ (first.boundNesting (then_.tame tame) c n no resolved is)
    | false =>
      have still := (first.flags c).still resolved
      rw [is, Option.isSome_some] at still
      obtain ⟨m, isM⟩ := Option.isSome_iff_exists.mp still
      obtain ⟨k, isK, le⟩ := (first.flags c).nesting m isM
      cases is.symm.trans isK
      exact (then_.boundNesting tame c m resolved yes isM).mono le

theorem eqView_targets (same : ∀ c, targets (store' c) = targets (store c))
    (incomplete : ∀ c, isIncomplete (store' c) = isIncomplete (store c)) (c : Cell) :
    targets (eqView lax store' c) = targets (eqView lax store c) := by
  unfold eqView
  rw [incomplete]
  split
  · rfl
  · exact same c

theorem Upheld.of_flags (flags : ∀ c, Flags (store c) (store' c))
    (same : ∀ c, targets (store' c) = targets (store c))
    (resolved : ∀ c, isResolved (store' c) = isResolved (store c))
    (incomplete : ∀ c, isIncomplete (store' c) = isIncomplete (store c)) :
    Upheld lax overloaded store store' where
  flags := flags
  tame tame o mem t is := by
    have still : isResolved (store' o) = true := by
      rw [resolved, is]
      rfl
    obtain ⟨t', is'⟩ := isResolved_iff.mp still
    have both := same o
    rw [is, is'] at both
    rw [List.singleton_inj.mp both] at is'
    exact tame o mem t is'
  admits t admits := by
    refine Hereditary.of_paths admits (fun a b step => ?_) fun u => EqOk.flags flags
    rw [follow_same (eqView_targets same incomplete)] at step
    exact .single step
  nested _ n t nested := by
    refine Hereditary.of_paths nested (fun a b step => ?_) fun u => NestOk.flags flags
    rw [follow_same same] at step
    exact .single step
  boundEq c no yes := by
    rw [resolved] at yes
    cases no.symm.trans yes
  boundNesting _ c n no yes := by
    rw [resolved] at yes
    cases no.symm.trans yes

theorem flags_update (flags : Flags (store v) typevar) (c : Cell) :
    Flags (store c) (Function.update store v typevar c) := by
  by_cases here : c = v
  · subst here
    rw [Function.update_self]
    exact flags
  · rw [Function.update_of_ne here]
    exact .refl _

theorem eqView_update_of_ne (other : c ≠ v) :
    eqView lax (Function.update store v typevar) c = eqView lax store c := by
  unfold eqView
  rw [Function.update_of_ne other]

theorem Tame.of_update (free : isResolved (store v) = false)
    (tame : Tame overloaded (Function.update store v typevar)) : Tame overloaded store := by
  intro o mem t is
  by_cases here : o = v
  · rw [here] at is
    simp [is, isResolved] at free
  · exact tame o mem t (by rwa [Function.update_of_ne here])

theorem Upheld.update (free : isResolved (store v) = false) (flags : Flags (store v) typevar)
    (eq : eqOf (store v) = true →
      ∀ t ∈ targets (eqView lax (Function.update store v typevar) v), Admits lax store t)
    (nesting : Tame overloaded (Function.update store v typevar) →
      ∀ n, NestOk store n (.typeVariableRef v) → ∀ t ∈ targets typevar, Nested n store t) :
    Upheld lax overloaded store (Function.update store v typevar) := by
  have flags' := flags_update flags
  have admits (t : Ty) (admits : Admits lax store t) :
      Admits lax (Function.update store v typevar) t := by
    apply Hereditary.redirect (v := v) (eqSees_variable v) _ eq (fun u => EqOk.flags flags') admits
    intro c other
    rw [eqView_update_of_ne other]
  have nested (tame : Tame overloaded (Function.update store v typevar)) (n : Int) (t : Ty)
      (nested : Nested n store t) : Nested n (Function.update store v typevar) t := by
    apply Hereditary.redirect (v := v) (sees_variable v) _ _ (fun u => NestOk.flags flags') nested
    · intro c other
      rw [Function.update_of_ne other]
    · rw [Function.update_self]
      exact nesting tame n
  have only (c : Cell) (no : isResolved (store c) = false)
      (yes : isResolved (Function.update store v typevar c) = true) : c = v := by
    by_contra other
    rw [Function.update_of_ne other] at yes
    cases no.symm.trans yes
  constructor
  · exact flags'
  · exact Tame.of_update free
  · exact admits
  · exact nested
  · intro c no yes demands
    cases only c no yes
    apply Hereditary.intro
    · exact (flags' v).eq demands
    · intro u step
      rw [follow_variable (eqSees_variable v)] at step
      exact admits u (eq demands u step)
  · intro tame c n no yes is
    cases only c no yes
    apply Hereditary.intro
    · intro m is'
      obtain ⟨k, isK, le⟩ := (flags' v).nesting m is'
      cases isK.symm.trans is
      exact le
    · intro u step
      rw [follow_variable (sees_variable v), Function.update_self] at step
      apply nested tame n u
      apply nesting tame n _ u step
      intro m is'
      cases is.symm.trans is'
      exact le_rfl

theorem Link.eqView (step : Link store t u) : Link (eqView lax store) t u := by
  cases step with
  | resolved known =>
    apply Link.resolved
    simp [UnifyTypes.eqView, known, isIncomplete]

theorem Shortened.eqView {into : Ty → Ty → Prop} (short : Shortened store store')
    (step : Follow into (eqView lax store') t u) :
    TransGen (Follow into (UnifyTypes.eqView lax store)) t u := by
  have views : Shortened (UnifyTypes.eqView lax store) (UnifyTypes.eqView lax store') := by
    intro c
    rcases short c with same | ⟨d, p, was, now, path⟩
    · left
      unfold UnifyTypes.eqView
      rw [same]
    · refine .inr ⟨d, p, ?_, ?_, path.lift id fun _ _ => Link.eqView⟩
      · simp [UnifyTypes.eqView, was, isIncomplete]
      · simp [UnifyTypes.eqView, now, isIncomplete]
  exact views.follow step

theorem Upheld.of_shortened (short : Shortened store store') :
    Upheld lax overloaded store store' := by
  have flags (c : Cell) : Flags (store c) (store' c) := by
    rcases short c with same | ⟨d, p, _, now, _⟩
    · rw [same]
      exact .refl _
    · rw [now]
      exact .resolve _ _
  have resolved (c : Cell) (no : isResolved (store c) = false)
      (yes : isResolved (store' c) = true) : False := by
    rcases short c with same | ⟨d, p, was, _, _⟩
    · rw [same] at yes
      cases no.symm.trans yes
    · rw [was] at no
      cases no
  constructor
  · exact flags
  · intro tame o mem t is
    rcases short o with same | ⟨d, p, was, now, _⟩
    · exact tame o mem t (same.trans is)
    · cases is.symm.trans was
      exact .inr ⟨d, rfl⟩
  · intro t admits
    refine Hereditary.of_paths admits (fun a b step => ?_) fun u => EqOk.flags flags
    exact (short.eqView step).to_reflTransGen
  · intro _ n t nested
    exact Hereditary.of_paths nested (fun a b step => (short.follow step).to_reflTransGen)
      fun u => NestOk.flags flags
  · exact fun c no yes => (resolved c no yes).elim
  · exact fun _ c n no yes => (resolved c no yes).elim

theorem admits_of_reduction (path : ReflTransGen (Reduces store) type ety)
    (admits : Admits lax store ety) : Admits lax store type := by
  induction path using ReflTransGen.head_induction_on with
  | refl => exact admits
  | @head t u step _ ih =>
    cases step with
    | abbreviation =>
      refine Hereditary.intro rfl fun x step => ?_
      cases step with
      | into sees =>
        cases sees with
        | arg passes _ => cases passes
        | reduct => exact ih
    | scheme =>
      refine Hereditary.intro trivial fun x step => ?_
      cases step with
      | into sees =>
        cases sees with
        | body => exact ih
    | @resolved c _ known =>
      refine Hereditary.intro ?_ fun x step => ?_
      · rw [EqOk, known]
        rfl
      · have link : Link (eqView lax store) (.typeVariableRef c) u := (Link.resolved known).eqView
        cases link with
        | resolved viewed =>
          rw [follow_variable (eqSees_variable c), viewed] at step
          cases List.mem_singleton.mp step
          exact ih

theorem nested_of_reduction (path : ReflTransGen (Reduces store) type ety)
    (nested : Nested n store ety) : Nested n store type := by
  induction path using ReflTransGen.head_induction_on with
  | refl => exact nested
  | @head t u step _ ih =>
    apply Hereditary.intro
    · cases step with
      | resolved known => simp [NestOk, known, nestingOf]
      | _ => trivial
    · intro x seen
      rw [step.only seen]
      exact ih

theorem nested_of_unseen (unseen : ∀ c, ¬Seen store t c) : Nested n store t := by
  intro u path
  cases u with
  | typeVariableRef c => exact (unseen c path).elim
  | _ => trivial

theorem unseen_of_free {into : Ty → Ty → Prop} {hidden : Set Cell}
    (clear : Clear into store hidden t) (free : ∀ c, ¬Occurs Part t c) : ¬Seen store t c := by
  intro seen
  induction seen using ReflTransGen.head_induction_on with
  | refl => exact free c .refl
  | @head t u step _ ih =>
    apply ih (clear.follow step)
    cases step with
    | into sees => exact fun d occurs => free d (covers_part.sees sees clear.here.body occurs)
    | @target d _ _ => exact (free d .refl).elim

end Upholding

end Mythryl.UnifyTypes
