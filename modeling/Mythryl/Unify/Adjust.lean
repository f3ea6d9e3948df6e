import Mythryl.Evolution
import Mythryl.Unify.Demands

/-!
# The occurs check

`adjust_type` changes nesting and equality only, of variables its type leads to.
-/

namespace Mythryl.UnifyTypes
open Relation RaisingState

def compared : TypeVariable → Bool
  | .metaTypeVariable .. | .incompleteRecordTypeVariable .. | .overloadedTypeVariable _ => true
  | _ => false

structure Outlook where
  into : Ty → Ty → Prop
  covers : Covers into
  hidden : Set Cell
  lax : Set Cell
  overloaded : Set Cell

structure Alike (v w : TypeVariable) : Prop where
  targets : targets w = targets v
  bindable : bindable w = bindable v
  compared : compared w = compared v
  resolved : isResolved w = isResolved v
  incomplete : isIncomplete w = isIncomplete v
  flags : Flags v w

structure Adjusted (S : Set Cell) (store store' : Store) : Prop where
  alike : ∀ c, Alike (store c) (store' c)
  outside : ∀ c ∉ S, store' c = store c

section Definitions

variable (look : Outlook) (S : Set Cell) (store : Store)

structure Base : Prop where
  acyclic : Acyclic look.into store
  closed : Closed look.into store S
  lax : ∀ c, isIncomplete (store c) = true → eqOf (store c) = false → c ∈ look.lax
  overloaded : ∀ c, isOverloaded (store c) = true → c ∈ look.overloaded

structure Ready (t : Ty) : Prop where
  within : Within look.into S t
  clear : Clear look.into store look.hidden t

structure Suits (given : Cell) (nesting : Int) (eq : Bool) (t : Ty) : Prop where
  unseen : ¬Seen store t given
  admits : eq = true → Admits look.lax store t
  nested : Nested nesting store t

end Definitions

instance {S : Set Cell} : IsPreorder Store (Adjusted S) where
  refl _ := ⟨fun _ => ⟨rfl, rfl, rfl, rfl, rfl, .refl _⟩, fun _ _ => rfl⟩
  trans _ _ _ first then_ := by
    refine ⟨fun c => ?_, fun c out => (then_.outside c out).trans (first.outside c out)⟩
    obtain ⟨targets, bindable, compared, resolved, incomplete, flags⟩ := first.alike c
    obtain ⟨targets', bindable', compared', resolved', incomplete', flags'⟩ := then_.alike c
    exact ⟨targets'.trans targets, bindable'.trans bindable, compared'.trans compared,
      resolved'.trans resolved, incomplete'.trans incomplete, flags.trans flags'⟩

section Checking

variable {look : Outlook} {store store' : Store} {S S' : Set Cell} {t u type : Ty}
  {c tv given : Cell} {fuel : Nat} {nesting n : Int} {eq eq' : Bool} {typ : Typ} {args : List Ty}
  {typevar : TypeVariable}

theorem Evolves.deref {R : Store → Store → Prop} {A : Type} {f : TypeVariable → Calling A}
    {Q : A → Store → Prop} (rest : Evolves R store (f (store tv)) Q) :
    Evolves R store (deref tv >>= f) Q := by
  rintro _ rfl
  exact rest _ rfl

theorem bindable_of_compared (check : compared typevar = true) : bindable typevar = true := by
  cases typevar <;> first | rfl | cases check

theorem Adjusted.upheld {lax overloaded : Set Cell} (adjusted : Adjusted S store store') :
    Upheld lax overloaded store store' :=
  .of_flags (fun c => (adjusted.alike c).flags) (fun c => (adjusted.alike c).targets)
    (fun c => (adjusted.alike c).resolved) fun c => (adjusted.alike c).incomplete

theorem Adjusted.follow {into : Ty → Ty → Prop} (adjusted : Adjusted S store store') :
    Follow into store' = Follow into store := follow_same fun c => (adjusted.alike c).targets

theorem Adjusted.seen (adjusted : Adjusted S store store') : Seen store' t c ↔ Seen store t c := by
  unfold Seen
  rw [adjusted.follow]

theorem Adjusted.reaches {into : Ty → Ty → Prop} (adjusted : Adjusted S store store') :
    Reaches into store' t c ↔ Reaches into store t c := by
  unfold Reaches
  rw [adjusted.follow]

theorem Adjusted.clear (adjusted : Adjusted S' store store') (ready : Ready look S store t) :
    Ready look S store' t :=
  ⟨ready.within, ready.clear.same (fun c => (adjusted.alike c).targets)
    fun c => (adjusted.alike c).bindable⟩

theorem Adjusted.closed (adjusted : Adjusted S' store store')
    (closed : Closed look.into store S) : Closed look.into store' S := by
  intro c mem t target
  rw [(adjusted.alike c).targets] at target
  exact closed c mem t target

theorem Adjusted.base (adjusted : Adjusted S' store store') (base : Base look S store) :
    Base look S store' where
  acyclic c := by
    rw [adjusted.follow]
    exact base.acyclic c
  closed := adjusted.closed base.closed
  lax c incomplete no := by
    rw [(adjusted.alike c).incomplete] at incomplete
    apply base.lax c incomplete
    cases was : eqOf (store c) with
    | false => rfl
    | true => cases ((adjusted.alike c).flags.eq was).symm.trans no
  overloaded c is := base.overloaded c ((adjusted.alike c).flags.overloaded is)

theorem Adjusted.assign (mem : tv ∈ S) (alike : Alike (store tv) typevar) :
    Adjusted S store (Function.update store tv typevar) := by
  constructor
  · intro c
    by_cases here : c = tv
    · subst here
      rw [Function.update_self]
      exact alike
    · rw [Function.update_of_ne here]
      exact ⟨rfl, rfl, rfl, rfl, rfl, .refl _⟩
  · intro c out
    apply Function.update_of_ne
    rintro rfl
    exact out mem

theorem Suits.adjusted (suits : Suits look store given nesting eq t)
    (adjusted : Adjusted S store store') : Suits look store' given nesting eq t where
  unseen := by
    rw [adjusted.seen]
    exact suits.unseen
  admits is := by
    have upheld : Upheld look.lax ∅ store store' := adjusted.upheld
    exact upheld.admits t (suits.admits is)
  nested := by
    have upheld : Upheld look.lax ∅ store store' := adjusted.upheld
    exact upheld.nested (fun _ mem => mem.elim) nesting t suits.nested

theorem suits_variable (other : given ≠ c) (demands : eq = true → eqOf (store c) = true)
    (nests : ∀ m, nestingOf (store c) = some m → m ≤ nesting)
    (unseen : ∀ t ∈ targets (store c), ¬Seen store t given)
    (admits : eq = true → ∀ t ∈ targets (eqView look.lax store c), Admits look.lax store t)
    (nested : ∀ t ∈ targets (store c), Nested nesting store t) :
    Suits look store given nesting eq (.typeVariableRef c) where
  unseen seen := by
    rcases seen.cases_head with same | ⟨t, step, rest⟩
    · exact other (Ty.typeVariableRef.inj same).symm
    · rw [follow_variable (sees_variable c)] at step
      exact unseen t step rest
  admits is := by
    refine Hereditary.intro (demands is) fun u step => ?_
    rw [follow_variable (eqSees_variable c)] at step
    exact admits is u step
  nested := by
    refine Hereditary.intro nests fun u step => ?_
    rw [follow_variable (sees_variable c)] at step
    exact nested u step

theorem eqView_sub (mem : t ∈ targets (eqView look.lax store c)) : t ∈ targets (store c) := by
  unfold eqView at mem
  split at mem
  · cases mem
  · exact mem

theorem not_lax (incomplete : isIncomplete (store c) = true)
    (mem : t ∈ targets (eqView look.lax store c)) : c ∉ look.lax := by
  intro lax
  unfold eqView at mem
  rw [if_pos ⟨incomplete, lax⟩] at mem
  cases mem

theorem suits_leaf (other : given ≠ c) (none : targets (store c) = [])
    (demands : eq = true → eqOf (store c) = true)
    (nests : ∀ m, nestingOf (store c) = some m → m ≤ nesting) :
    Suits look store given nesting eq (.typeVariableRef c) := by
  apply suits_variable other demands nests
  · rw [none]
    nofun
  · intro _ t mem
    have mem' := eqView_sub mem
    rw [none] at mem'
    cases mem'
  · rw [none]
    nofun

theorem suits_typcon (plain : typ.isDefined = false) (equality : eq = true → equalityTyp typ = true)
    (passes : eq = true → passesEquality typ = true → eq' = true)
    (each : ∀ t ∈ args, Suits look store given nesting eq' t) :
    Suits look store given nesting eq (.typconType typ args) := by
  constructor
  · intro seen
    rcases seen.cases_head with same | ⟨t, step, rest⟩
    · cases same
    · cases step with
      | into sees =>
        cases sees with
        | arg _ mem => exact (each t mem).unseen rest
        | reduct => cases plain
  · intro is
    refine Hereditary.intro (equality is) fun u step => ?_
    cases step with
    | into sees =>
      cases sees with
      | arg yes mem => exact (each u mem).admits (passes is yes)
      | reduct => cases plain
  · refine Hereditary.intro trivial fun u step => ?_
    cases step with
    | into sees =>
      cases sees with
      | arg _ mem => exact (each u mem).nested
      | reduct => cases plain

theorem suits_wildcard : Suits look store given nesting eq .wildcardType := by
  have alone {into : Ty → Ty → Prop} {view : Store} {u : Ty} (none : ∀ u, ¬into .wildcardType u) :
      ¬Follow into view .wildcardType u := by
    intro step
    cases step with
    | into inner => exact none u inner
  constructor
  · intro seen
    rcases seen.cases_head with same | ⟨t, step, _⟩
    · cases same
    · exact alone (fun _ => nofun) step
  · exact fun _ => Hereditary.intro trivial fun u step => (alone (fun _ => nofun) step).elim
  · exact Hereditary.intro trivial fun u step => (alone (fun _ => nofun) step).elim

theorem Suits.of_reduction (free : bindable (store given) = true)
    (path : ReflTransGen (Reduces store) t u) (suits : Suits look store given nesting eq u) :
    Suits look store given nesting eq t where
  unseen seen := suits.unseen (seen_of_reduces free path seen)
  admits is := admits_of_reduction path (suits.admits is)
  nested := nested_of_reduction path suits.nested

def reached (into : Ty → Ty → Prop) (store : Store) (source : List Ty) : Set Cell :=
  { c | ∃ t ∈ source, Reaches into store t c }

section Reached

variable {source : List Ty}

theorem ready_reached (ready : ∀ t ∈ source, Ready look S store t) :
    ∀ t ∈ source, Ready look (reached look.into store source) store t := fun t mem =>
  ⟨within_reaches { t | t ∈ source } mem, (ready t mem).clear⟩

variable (base : Base look S store)

include base

theorem Base.reached : Base look (reached look.into store source) store :=
  { base with closed := closed_reaches { t | t ∈ source } }

theorem Base.reached_sub (ready : ∀ t ∈ source, Ready look S store t) :
    UnifyTypes.reached look.into store source ⊆ S := by
  rintro c ⟨t, mem, reaches⟩
  exact base.closed.reaches (ready t mem).within reaches

theorem Ready.target (ready : Ready look S store (.typeVariableRef c))
    (mem : t ∈ targets (store c)) : Ready look S store t :=
  ⟨base.closed.follow ready.within (.target mem), ready.clear.follow (.target mem)⟩

theorem Ready.reduction (ready : Ready look S store t) (path : ReflTransGen (Reduces store) t u) :
    Ready look S store u := by
  induction path with
  | refl => exact ready
  | tail _ step ih =>
    exact ⟨step.within look.covers ih.clear.here.body base.closed ih.within, ih.clear.reduces step⟩

end Reached

theorem Ready.mem (ready : Ready look S store (.typeVariableRef c)) : c ∈ S :=
  ready.within c .refl

theorem Ready.shown (ready : Ready look S store (.typeVariableRef c))
    (free : bindable (store c) = true) : c ∉ look.hidden := ready.clear.here.visible c rfl free

theorem Ready.arg (ready : Ready look S store (.typconType typ args))
    (plain : typ.isDefined = false) (mem : t ∈ args) : Ready look S store t :=
  ⟨ready.within.inner (look.covers.arg plain mem), ready.clear.follow (.into (.arg plain mem))⟩

theorem Adjusted.widen (adjusted : Adjusted S' store store') (sub : S' ⊆ S) :
    Adjusted S store store' :=
  ⟨adjusted.alike, fun c out => adjusted.outside c fun mem => out (sub mem)⟩

theorem equalityPropertyOfTyp_evolves (S : Set Cell) (store : Store) (typ : Typ) :
    Evolves (Adjusted S) store (equalityPropertyOfTyp typ) fun property _ =>
      (property = .yes → equalityTyp typ = true) ∧
        (property = .chunk → equalityTyp typ = true ∧ passesEquality typ = false) := by
  cases typ with
  | plainTyp record =>
    obtain ⟨stamp, arity, eqtypeInfo⟩ := record
    cases eqtypeInfo <;>
      exact Evolves.ret (by simp [equalityTyp, passesEquality])
  | recordTyp labels => exact Evolves.ret (by simp [equalityTyp])
  | _ => exact .raise

theorem adjustType'_typcon (plain : typ.isDefined = false) :
    adjustType' given nesting (fuel + 1) eq (.typconType typ args) = (do
      match ← equalityPropertyOfTyp typ with
      | .chunk => args.forM (adjustType' given nesting fuel false)
      | .yes => args.forM (adjustType' given nesting fuel eq)
      | _ =>
        if eq then fails .needEqualityType
        else args.forM (adjustType' given nesting fuel false)) := by
  cases typ <;> first | rfl | cases plain

theorem forM_adjusted {A : Type} {l : List A} {f : A → Ty} {adjust : A → Calling Unit}
    (each : ∀ x ∈ l, ∀ s, Adjusted S store s → Evolves (Adjusted S) s (adjust x)
      fun _ s' => Suits look s' given nesting eq (f x)) :
    Evolves (Adjusted S) store (l.forM adjust) fun _ s =>
      Adjusted S store s ∧ ∀ x ∈ l, Suits look s given nesting eq (f x) := by
  apply Evolves.forM (refl store)
  · exact fun x s₁ s₂ adjusted suits => suits.adjusted adjusted
  · intro x mem s before
    apply (each x mem s before).weaken
    exact fun _ s' step suits => ⟨trans_of (Adjusted S) before step, suits⟩

theorem Adjusted.resolved (adjusted : Adjusted S store store')
    (known : store c = .resolvedTypeVariable t) : store' c = .resolvedTypeVariable t := by
  have still := (adjusted.alike c).resolved
  rw [known, isResolved, isResolved_iff] at still
  obtain ⟨t', is⟩ := still
  have same := (adjusted.alike c).targets
  rw [known, is] at same
  rw [is, List.singleton_inj.mp same]

theorem Adjusted.reduction (adjusted : Adjusted S store store')
    (path : ReflTransGen (Reduces store) t u) : ReflTransGen (Reduces store') t u := by
  apply path.lift id
  intro a b step
  cases step with
  | abbreviation => exact .abbreviation
  | scheme => exact .scheme
  | resolved known => exact .resolved (adjusted.resolved known)

variable {m n : Int}

theorem alike_user {name : String} (le : m ≤ n) :
    Alike (.userTypeVariable name eq n) (.userTypeVariable name eq m) where
  targets := rfl
  bindable := rfl
  compared := rfl
  resolved := rfl
  incomplete := rfl
  flags := ⟨id, fun _ is => ⟨n, rfl, Option.some.inj is ▸ le⟩, fun _ => rfl, id, id, id⟩

theorem alike_meta (le : m ≤ n) (more : eq = true → eq' = true) :
    Alike (.metaTypeVariable eq n) (.metaTypeVariable eq' m) where
  targets := rfl
  bindable := rfl
  compared := rfl
  resolved := rfl
  incomplete := rfl
  flags := ⟨more, fun _ is => ⟨n, rfl, Option.some.inj is ▸ le⟩, fun _ => rfl, id, id, id⟩

theorem flags_incomplete {fields fields' : List (Label × Ty)} (le : m ≤ n)
    (more : eq = true → eq' = true) : Flags (.incompleteRecordTypeVariable fields eq n)
      (.incompleteRecordTypeVariable fields' eq' m) :=
  ⟨more, fun _ is => ⟨n, rfl, Option.some.inj is ▸ le⟩, fun _ => rfl, id, id, id⟩

theorem alike_incomplete {knownFields : List (Label × Ty)} (le : m ≤ n)
    (more : eq = true → eq' = true) : Alike (.incompleteRecordTypeVariable knownFields eq n)
      (.incompleteRecordTypeVariable knownFields eq' m) where
  targets := rfl
  bindable := rfl
  compared := rfl
  resolved := rfl
  incomplete := rfl
  flags := flags_incomplete le more

theorem alike_overloaded (more : eq = true → eq' = true) :
    Alike (.overloadedTypeVariable eq) (.overloadedTypeVariable eq') where
  targets := rfl
  bindable := rfl
  compared := rfl
  resolved := rfl
  incomplete := rfl
  flags := ⟨more, nofun, fun _ => rfl, id, id, id⟩

theorem adjust_assigns (mem : tv ∈ S) (alike : Alike (store tv) typevar)
    (suits : Suits look (Function.update store tv typevar) given nesting eq t) :
    Evolves (Adjusted S) store (assign tv typevar) fun _ s => Suits look s given nesting eq t :=
  Evolves.modify (Adjusted.assign mem alike) suits

theorem adjust_leaf (mem : tv ∈ S) (other : given ≠ tv) (alike : Alike (store tv) typevar)
    (none : targets typevar = []) (demands : eq = true → eqOf typevar = true)
    (nests : ∀ m, nestingOf typevar = some m → m ≤ nesting) :
    Evolves (Adjusted S) store (assign tv typevar)
      fun _ s => Suits look s given nesting eq (.typeVariableRef tv) := by
  apply adjust_assigns mem alike
  apply suits_leaf other <;> rw [Function.update_self]
  · exact none
  · exact demands
  · exact nests

theorem adjustType'_evolves (check : compared (store given) = true) (base : Base look S store)
    (ready : Ready look S store t) :
    Evolves (Adjusted S) store (adjustType' given nesting fuel eq t)
      fun _ s => Suits look s given nesting eq t := by
  induction fuel generalizing store eq t S with
  | zero => exact .raise
  | succ fuel ih =>
    have sub {S : Set Cell} {s : Store} (adjusted : Adjusted S store s) {eq' : Bool} {u : Ty}
        (base : Base look S store) (ready : Ready look S store u) :
        Evolves (Adjusted S) s (adjustType' given nesting fuel eq' u)
          fun _ s' => Suits look s' given nesting eq' u :=
      ih ((adjusted.alike given).compared.trans check) (adjusted.base base) (adjusted.clear ready)
    cases t with
    | typeVariableRef tv =>
      apply Evolves.deref
      have mem := ready.mem
      have uncompared (no : compared (store tv) = false) : given ≠ tv := by
        rintro rfl
        cases check.symm.trans no
      cases known : store tv with
      | userTypeVariable name eq' n =>
        rw [known] at uncompared
        dsimp only
        split
        · exact .raise
        · rename_i admitted
          have demands : eq = true → eq' = true := by
            rintro rfl
            simpa using admitted
          split
          · rename_i less
            apply adjust_leaf mem (uncompared rfl)
            · rw [known]
              exact alike_user less.le
            · rfl
            · exact demands
            · exact fun m is => (Option.some.inj is).ge
          · rename_i notLess
            apply Evolves.ret
            apply suits_leaf (uncompared rfl) <;> rw [known]
            · rfl
            · exact demands
            · intro m is
              cases is
              exact not_lt.mp notLess
      | metaTypeVariable eq' n =>
        dsimp only
        split
        · exact .raise
        · rename_i other
          apply adjust_leaf mem other
          · rw [known]
            exact alike_meta (min_le_right _ _) fun is => by simp [is]
          · rfl
          · exact fun is => by simp [eqOf, is]
          · exact fun m is => Option.some.inj is ▸ min_le_left _ _
      | incompleteRecordTypeVariable knownFields eq' n =>
        dsimp only
        split
        · exact .raise
        · rename_i other
          have fields : ∀ x ∈ knownFields, x.2 ∈ targets (store tv) := by
            rw [known]
            exact fun x mem => List.mem_map_of_mem mem
          have readyFields : ∀ t ∈ targets (store tv), Ready look S store t :=
            fun t mem => ready.target base mem
          -- The variable is not among those its fields lead to, so it is as it was.
          have out : tv ∉ reached look.into store (targets (store tv)) := by
            rintro ⟨t, target, reaches⟩
            exact base.acyclic.not_target target reaches
          have run : Evolves (Adjusted (reached look.into store (targets (store tv)))) store
              (knownFields.forM fun x => adjustType' given nesting fuel eq' x.2) fun _ s =>
                Adjusted (reached look.into store (targets (store tv))) store s ∧
                  ∀ x ∈ knownFields, Suits look s given nesting eq' x.2 := by
            apply forM_adjusted
            intro x mem s later
            exact sub later base.reached (ready_reached readyFields x.2 (fields x mem))
          apply Evolves.bind (run.mono fun s adjusted =>
            adjusted.widen (base.reached_sub readyFields))
          rintro ⟨⟩ s _ ⟨adjusted, suits⟩
          have same := (adjusted.outside tv out).trans known
          have alike : Alike (s tv) (.incompleteRecordTypeVariable knownFields (eq || eq')
              (min nesting n)) := by
            rw [same]
            exact alike_incomplete (min_le_right _ _) fun is => by simp [is]
          apply adjust_assigns mem alike
          have suits' : ∀ t ∈ knownFields.map Prod.snd, Suits look (Function.update s tv
              (.incompleteRecordTypeVariable knownFields (eq || eq') (min nesting n)))
                given nesting eq' t := by
            intro t target
            obtain ⟨x, memX, rfl⟩ := List.mem_map.mp target
            exact (suits x memX).adjusted (Adjusted.assign mem alike)
          apply suits_variable other
          · rw [Function.update_self]
            exact fun is => by simp [eqOf, is]
          · rw [Function.update_self]
            exact fun m is => Option.some.inj is ▸ min_le_left _ _
          · rw [Function.update_self]
            exact fun t target => (suits' t target).unseen
          · intro _ t target
            have demands : eq' = true := by
              by_contra no
              rw [Bool.not_eq_true] at no
              have lax := base.lax tv (by rw [known]; rfl) (by rw [known]; exact no)
              exact not_lax (by rw [Function.update_self]; rfl) target lax
            have target' := eqView_sub target
            rw [Function.update_self] at target'
            exact (suits' t target').admits demands
          · rw [Function.update_self]
            exact fun t target => (suits' t target).nested
      | resolvedTypeVariable type =>
        have target : type ∈ targets (store tv) := by simp [targets, known]
        apply (sub (refl store) base (ready.target base target)).weaken
        intro _ s adjusted suits
        have known' := adjusted.resolved known
        exact suits.of_reduction
          ((adjusted.alike given).bindable.trans (bindable_of_compared check))
          (.single (.resolved known'))
      | literalTypeVariable kind =>
        rw [known] at uncompared
        dsimp only
        split
        · exact .raise
        · rename_i admitted
          apply Evolves.ret
          apply suits_leaf (uncompared rfl) <;> rw [known]
          · rfl
          · rintro rfl
            simpa [eqOf] using admitted
          · rintro _ ⟨⟩
      | overloadedTypeVariable eq' =>
        dsimp only
        split
        · exact .raise
        · rename_i other
          split
          · rename_i more
            rw [Bool.and_eq_true] at more
            apply adjust_leaf mem other
            · rw [known]
              exact alike_overloaded fun _ => more.1
            · rfl
            · exact id
            · rintro _ ⟨⟩
          · rename_i admitted
            apply Evolves.ret
            apply suits_leaf other <;> rw [known]
            · rfl
            · rintro rfl
              simpa [eqOf] using admitted
            · rintro _ ⟨⟩
      | typeVariableMark n => exact .raise
    | typconType typ args =>
      by_cases plain : typ.isDefined = false
      · rw [adjustType'_typcon plain]
        have all (eq' : Bool) (s : Store) (adjusted : Adjusted S store s) :
            Evolves (Adjusted S) s (args.forM (adjustType' given nesting fuel eq')) fun _ s' =>
              Adjusted S s s' ∧ ∀ t ∈ args, Suits look s' given nesting eq' t := by
          apply forM_adjusted (f := id)
          intro t mem s' later
          exact sub (trans_of (Adjusted S) adjusted later) base (ready.arg plain mem)
        apply Evolves.bind (equalityPropertyOfTyp_evolves S store typ)
        rintro property s adjusted ⟨yes, chunk⟩
        cases property with
        | chunk =>
          apply (all false s adjusted).weaken
          rintro _ s' _ ⟨_, each⟩
          apply suits_typcon plain (fun _ => (chunk rfl).1) _ each
          intro _ passes
          cases passes.symm.trans (chunk rfl).2
        | yes =>
          apply (all eq s adjusted).weaken
          rintro _ s' _ ⟨_, each⟩
          exact suits_typcon plain (fun _ => yes rfl) (fun is _ => is) each
        | _ =>
          dsimp only
          split
          · exact .raise
          · rename_i no
            apply (all false s adjusted).weaken
            rintro _ s' _ ⟨_, each⟩
            exact suits_typcon plain (fun is => (no is).elim) (fun is _ => (no is).elim) each
      · cases typ with
        | definedTyp arity body =>
          rw [adjustType']
          apply Evolves.state
          apply Evolves.lift_bind
          intro u result
          obtain ⟨path, _⟩ := headReduceType_ok ready.clear result
          apply (sub (refl store) base (ready.reduction base path)).weaken
          intro _ s adjusted suits
          exact suits.of_reduction
            ((adjusted.alike given).bindable.trans (bindable_of_compared check))
            (adjusted.reduction path)
        | _ => cases plain rfl
    | wildcardType =>
      rw [adjustType']
      exact .ret suits_wildcard
    | _ => exact .raise

end Checking

end Mythryl.UnifyTypes
