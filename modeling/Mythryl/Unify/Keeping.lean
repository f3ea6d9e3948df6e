import Mythryl.Unify.Adjust

/-! # What unification keeps -/

namespace Mythryl.UnifyTypes
open Relation RaisingState

def MayBeLiteral (kind : LiteralKind) : Ty → Prop
  | .typconType (.plainTyp record) _ =>
      record.arity = 0 ∧ (literalIsEqualityKind kind = true → record.eqtypeInfo = .yes)
  | .typconType (.definedTyp ..) _ | .typconType .erroneousTyp _ => True
  | .typeVariableRef _ | .wildcardType => True
  | _ => False

def LiteralTypes (isLiteralType : LiteralKind → Ty → Bool) : Prop :=
  ∀ kind t, isLiteralType kind t = true → MayBeLiteral kind t

structure Kept (look : Outlook) (S : Set Cell) (store store' : Store) : Prop where
  acyclic : Acyclic look.into store → Acyclic look.into store'
  closed : Closed look.into store S → Closed look.into store' S
  outside : ∀ c ∉ S, store' c = store c
  clear : ∀ t, Clear look.into store look.hidden t → Clear look.into store' look.hidden t
  upheld : Upheld look.lax look.overloaded store store'

structure Cut (store : Store) (t : Ty) (store' : Store) : Prop where
  shortened : Shortened store store'
  linked : ∀ c, store' c = store c ∨ ReflTransGen (Link store) t (.typeVariableRef c)

def Pruned (store : Store) (t : Ty) : Prop :=
  ∀ c, t = .typeVariableRef c → isResolved (store c) = false

def Sound (look : Outlook) (unify : Ty → Ty → Calling Unit) : Prop :=
  ∀ S store t1 t2, Base look S store → Ready look S store t1 → Ready look S store t2 →
    Evolves (Kept look S) store (unify t1 t2) fun _ _ => True

section Keeping

variable {look : Outlook} {store store' store'' : Store} {S S' : Set Cell}
  {t t1 t2 u type ety : Ty} {c v var : Cell} {fuel : Nat} {nesting : Int} {eq : Bool}
  {typevar : TypeVariable} {unify : Ty → Ty → Calling Unit}
  {isLiteralType : LiteralKind → Ty → Bool}

theorem Kept.refl : Kept look S store store := ⟨id, id, fun _ _ => rfl, fun _ => id, .refl⟩

theorem Kept.trans (first : Kept look S store store') (then_ : Kept look S store' store'') :
    Kept look S store store'' where
  acyclic := then_.acyclic ∘ first.acyclic
  closed := then_.closed ∘ first.closed
  outside c mem := (then_.outside c mem).trans (first.outside c mem)
  clear t := then_.clear t ∘ first.clear t
  upheld := first.upheld.trans then_.upheld

instance : IsPreorder Store (Kept look S) where
  refl _ := .refl
  trans _ _ _ := .trans

theorem Kept.widen (kept : Kept look S' store store') (closed : Closed look.into store S')
    (sub : S' ⊆ S) : Kept look S store store' where
  __ := kept
  closed wide c mem t target := by
    by_cases inside : c ∈ S'
    · exact (kept.closed closed c inside t target).mono sub
    · rw [kept.outside c inside] at target
      exact wide c mem t target
  outside c mem := kept.outside c fun inside => mem (sub inside)

theorem Kept.of_adjusted (adjusted : Adjusted S store store') : Kept look S store store' where
  acyclic acyclic c := by
    rw [adjusted.follow]
    exact acyclic c
  closed := adjusted.closed
  outside := adjusted.outside
  clear t clear := clear.same (fun c => (adjusted.alike c).targets)
    fun c => (adjusted.alike c).bindable
  upheld := adjusted.upheld

theorem Kept.update (ready : Ready look S store (.typeVariableRef v))
    (free : bindable (store v) = true)
    (types : ∀ t ∈ targets typevar, Ready look S store t ∧ ¬Reaches look.into store t v)
    (upheld : Upheld look.lax look.overloaded store (Function.update store v typevar)) :
    Kept look S store (Function.update store v typevar) where
  acyclic := Acyclic.update look.covers.leaf fun t mem => (types t mem).2
  closed closed c memC t target := by
    by_cases here : c = v
    · subst here
      rw [Function.update_self] at target
      exact (types t target).1.within
    · rw [Function.update_of_ne here] at target
      exact closed c memC t target
  outside c out := by
    apply Function.update_of_ne
    rintro rfl
    exact out ready.mem
  clear _ := Clear.update free (ready.shown free) fun t mem => (types t mem).1.clear
  upheld := upheld

theorem Ready.kept (ready : Ready look S store t) (kept : Kept look S' store store') :
    Ready look S store' t := ⟨ready.within, kept.clear t ready.clear⟩

theorem Base.kept (base : Base look S store) (kept : Kept look S store store') :
    Base look S store' where
  acyclic := kept.acyclic base.acyclic
  closed := kept.closed base.closed
  lax c incomplete no := by
    apply base.lax c ((kept.upheld.flags c).incomplete incomplete)
    cases was : eqOf (store c) with
    | false => rfl
    | true => cases ((kept.upheld.flags c).eq was).symm.trans no
  overloaded c is := base.overloaded c ((kept.upheld.flags c).overloaded is)

theorem Cut.same : Cut store t store := ⟨fun _ => .inl rfl, fun _ => .inl rfl⟩

theorem Cut.from (cut : Cut store type store') (known : store c = .resolvedTypeVariable type) :
    Cut store (.typeVariableRef c) store' :=
  ⟨cut.shortened, fun d => (cut.linked d).imp_right (.head (.resolved known))⟩

theorem Cut.assign (cut : Cut store type store') (known : store c = .resolvedTypeVariable type)
    (path : ReflTransGen (Link store) type u) :
    Cut store (.typeVariableRef c) (Function.update store' c (.resolvedTypeVariable u)) where
  shortened d := by
    by_cases here : d = c
    · subst here
      rw [Function.update_self]
      rcases path.cases_head with rfl | ⟨next, step, _⟩
      · exact .inl known.symm
      · cases step
        exact .inr ⟨_, u, known, rfl, path⟩
    · rw [Function.update_of_ne here]
      exact cut.shortened d
  linked d := by
    by_cases here : d = c
    · subst here
      exact .inr .refl
    · rw [Function.update_of_ne here]
      exact (cut.from known).linked d

variable {A : Type} {source : List Ty}

theorem outcome_deref {f : TypeVariable → Calling A} :
    outcome (deref c >>= f) store = outcome (f (store c)) store := rfl

theorem prune_cuts (fuel : Nat) (store : Store) (t : Ty) :
    Triple (fun s => s = store) (prune fuel t)
      (fun p s => Cut store t s ∧ ReflTransGen (Link store) t p ∧ Pruned store p)
      (Cut store t) := by
  induction fuel generalizing t with
  | zero =>
    apply Triple.raise
    rintro _ rfl
    exact .same
  | succ fuel ih =>
    have stop (pruned : Pruned store t) : Triple (fun s => s = store) (pure t : Calling Ty)
        (fun p s => Cut store t s ∧ ReflTransGen (Link store) t p ∧ Pruned store p)
        (Cut store t) := by
      apply Triple.ret
      rintro _ rfl
      exact ⟨.same, .refl, pruned⟩
    cases t with
    | typeVariableRef tv =>
      rw [prune]
      rintro s rfl
      rw [outcome_deref]
      have unresolved (no : isResolved (s tv) = false) : Pruned s (.typeVariableRef tv) := by
        intro c is
        rwa [← Ty.typeVariableRef.inj is]
      cases known : s tv with
      | resolvedTypeVariable type =>
        have more : Triple (fun s' => s' = s)
            (prune fuel type >>= fun pruned => do
              assign tv (.resolvedTypeVariable pruned)
              return pruned)
            (fun p s' => Cut s (.typeVariableRef tv) s' ∧
              ReflTransGen (Link s) (.typeVariableRef tv) p ∧ Pruned s p)
            (Cut s (.typeVariableRef tv)) := by
          apply Triple.bind ((ih type).weaken (fun _ => id) (fun _ _ => id)
            fun _ cut => cut.from known)
          rintro p s' ⟨cut, path, pruned⟩
          exact ⟨cut.assign known path, .head (.resolved known) path, pruned⟩
        exact more s rfl
      | _ => exact stop (unresolved (by rw [known]; rfl)) s rfl
    | _ => exact stop nofun

theorem Shortened.resolved (short : Shortened store store') (c : Cell) :
    isResolved (store' c) = isResolved (store c) := by
  rcases short c with same | ⟨d, p, was, now, _⟩
  · rw [same]
  · rw [was, now]
    rfl

theorem Kept.of_cut (base : Base look S store) (ready : Ready look S store t)
    (cut : Cut store t store') : Kept look S store store' where
  acyclic acyclic c cycle := acyclic c (cut.shortened.cycle cycle)
  closed closed c mem u target d occurs := by
    have path : ReflTransGen (Follow look.into store') (.typeVariableRef c) (.typeVariableRef d) :=
      .head (.target target) (Reaches.occurs occurs)
    have within := (within_variable (look.covers.leaf c)).mpr mem
    exact closed.reaches within (cut.shortened.path path)
  outside c out := by
    apply (cut.linked c).resolve_right
    intro path
    have reaches : Reaches look.into store t c := path.lift id fun _ _ => Link.follow
    exact out (base.closed.reaches ready.within reaches)
  clear t := cut.shortened.clear
  upheld := .of_shortened cut.shortened

theorem prune_evolves (base : Base look S store) (ready : Ready look S store t) :
    Evolves (Kept look S) store (prune fuel t) fun p s =>
      Shortened store s ∧ Ready look S s p ∧ Pruned s p := by
  apply (prune_cuts fuel store t).weaken (fun _ => id)
  · rintro p s ⟨cut, path, pruned⟩
    have kept := Kept.of_cut base ready cut
    have follow {into : Ty → Ty → Prop} : ReflTransGen (Follow into store) t p :=
      path.lift id fun _ _ => Link.follow
    refine ⟨kept, cut.shortened, ⟨fun c occurs => ?_, ?_⟩, fun c is => ?_⟩
    · exact base.closed.reaches ready.within (follow.trans (Reaches.occurs occurs))
    · exact kept.clear p fun u later => ready.clear u (follow.trans later)
    · rw [cut.shortened.resolved]
      exact pruned c is
  · exact fun s cut => .of_cut base ready cut

section Fields

variable {R : Store → Store → Prop} [IsPreorder Store R] {P : Ty → Prop}

theorem consField_evolves {n : Label} {first : Calling Ty} {rest : Calling (List (Label × Ty))}
    (head : Evolves R store first fun u _ => P u)
    (tail : ∀ s, R store s → Evolves R s rest fun fields _ => ∀ x ∈ fields, P x.2) :
    Evolves R store (first >>= fun t => do return (n, t) :: (← rest))
      fun fields _ => ∀ x ∈ fields, P x.2 := by
  apply Evolves.bind head
  intro u s step holds
  apply Evolves.bind (tail s step)
  intro fields s' _ all
  exact .ret (List.forall_mem_cons.mpr ⟨holds, all⟩)

variable {I : Store → Prop} (kept : ∀ s s', R s s' → I s → I s')

include kept

theorem mapFields_evolves {just : Ty → Calling Ty} {fields : List (Label × Ty)} (start : I store)
    (each : ∀ x ∈ fields, ∀ s, I s → Evolves R s (just x.2) fun u _ => P u) :
    Evolves R store (fields.mapM fun x => do return (x.1, ← just x.2))
      fun fields _ => ∀ x ∈ fields, P x.2 := by
  apply Evolves.mapM (P := fun x : Label × Ty => P x.2) start kept
  intro x mem s holds
  apply Evolves.bind (each x mem s holds)
  exact fun u s' _ post => .ret post

theorem fieldwise_evolves {just1 just2 : Ty → Calling Ty} {combine : Ty → Ty → Calling Ty}
    {fields1 fields2 : List (Label × Ty)} (start : I store)
    (left : ∀ x ∈ fields1, ∀ s, I s → Evolves R s (just1 x.2) fun u _ => P u)
    (right : ∀ x ∈ fields2, ∀ s, I s → Evolves R s (just2 x.2) fun u _ => P u)
    (both : ∀ x ∈ fields1, ∀ y ∈ fields2, ∀ s, I s →
      Evolves R s (combine x.2 y.2) fun u _ => P u) :
    Evolves R store (fieldwise just1 just2 combine fields1 fields2)
      fun fields _ => ∀ x ∈ fields, P x.2 := by
  induction fields1, fields2 using fieldwise.induct generalizing store with
  | case1 fields2 =>
    rw [fieldwise]
    exact mapFields_evolves kept start right
  | case2 fields1 more =>
    rw [fieldwise]
    · exact mapFields_evolves kept start left
    · exact more
  | case3 t1 r1 n2 t2 r2 ih =>
    rw [List.forall_mem_cons] at left right
    simp only [List.forall_mem_cons] at both
    rw [fieldwise, if_pos rfl]
    apply consField_evolves (both.1.1 store start)
    intro s step
    exact ih (kept store s step start) left.2 right.2 fun x mem y memY => (both.2 x mem).2 y memY
  | case4 n1 t1 r1 n2 t2 r2 other ih1 ih2 =>
    have left' := List.forall_mem_cons.mp left
    have right' := List.forall_mem_cons.mp right
    rw [fieldwise, if_neg other]
    apply Evolves.lift_bind
    intro greater _
    split
    · apply consField_evolves (left'.1 store start)
      intro s step
      exact ih1 (kept store s step start) left'.2 right fun x mem =>
        both x (List.mem_cons_of_mem _ mem)
    · apply consField_evolves (right'.1 store start)
      intro s step
      exact ih2 (kept store s step start) left right'.2 fun x mem y memY =>
        both x mem y (List.mem_cons_of_mem _ memY)

end Fields

theorem isResolved_of_bindable (free : bindable typevar = true) : isResolved typevar = false := by
  cases typevar <;> first | rfl | cases free

theorem resolve_evolves (readyVar : Ready look S store (.typeVariableRef v))
    (free : bindable (store v) = true) (ready : Ready look S store t)
    (fresh : ¬Reaches look.into store t v)
    (admits : eqOf (store v) = true → Admits look.lax store t)
    (nested : Tame look.overloaded (Function.update store v (.resolvedTypeVariable t)) →
      ∀ k, NestOk store k (.typeVariableRef v) → Nested k store t) :
    Evolves (Kept look S) store (assign v (.resolvedTypeVariable t)) fun _ _ => True := by
  apply Evolves.modify (Q := fun _ _ => True) _ trivial
  apply Kept.update readyVar free
  · intro u mem
    cases List.mem_singleton.mp mem
    exact ⟨ready, fresh⟩
  · apply Upheld.update (isResolved_of_bindable free) (.resolve _ t)
    · intro demands u target
      have target' := eqView_sub target
      rw [Function.update_self] at target'
      cases List.mem_singleton.mp target'
      exact admits demands
    · intro tame k ok u target
      cases List.mem_singleton.mp target
      exact nested tame k ok

theorem not_reached_of_suits (adjusted : Adjusted (reached look.into store source) store store')
    (ready : ∀ t ∈ source, Ready look S store t) (free : bindable (store c) = true)
    (shown : c ∉ look.hidden) (suits : ∀ t ∈ source, Suits look store' c nesting eq t) :
    c ∉ reached look.into store source := by
  rintro ⟨t, mem, reaches⟩
  apply (suits t mem).unseen
  rw [adjusted.seen]
  exact (ready t mem).clear.seen reaches free shown

theorem adjustAll_evolves {l : List A} {f : A → Ty} (base : Base look S store)
    (ready : ∀ x ∈ l, Ready look S store (f x)) (check : compared (store c) = true) :
    Evolves (Kept look S) store (l.forM fun x => adjustType fuel (f x) c nesting eq) fun _ s =>
      Adjusted (reached look.into store (l.map f)) store s ∧
        ∀ x ∈ l, Suits look s c nesting eq (f x) := by
  have ready' : ∀ t ∈ l.map f, Ready look S store t := by
    intro t mem
    obtain ⟨x, memX, rfl⟩ := List.mem_map.mp mem
    exact ready x memX
  apply Evolves.mono (R := Adjusted (reached look.into store (l.map f)))
  · apply forM_adjusted
    intro x mem s adjusted
    exact adjustType'_evolves ((adjusted.alike c).compared.trans check)
      (adjusted.base base.reached)
      (adjusted.clear (ready_reached ready' (f x) (List.mem_map_of_mem mem)))
  · exact fun s adjusted => .of_adjusted (adjusted.widen (base.reached_sub ready'))

theorem adjustType_evolves (base : Base look S store) (ready : Ready look S store t)
    (check : compared (store c) = true) :
    Evolves (Kept look S) store (adjustType fuel t c nesting eq) fun _ s =>
      Adjusted (reached look.into store [t]) store s ∧ Suits look s c nesting eq t := by
  have ready' : ∀ u ∈ [t], Ready look S store u := by
    simpa using ready
  apply Evolves.mono (R := Adjusted (reached look.into store [t]))
  · apply (adjustType'_evolves check base.reached
      (ready_reached ready' t List.mem_cons_self)).weaken
    exact fun _ s adjusted suits => ⟨adjusted, suits⟩
  · exact fun s adjusted => .of_adjusted (adjusted.widen (base.reached_sub ready'))

theorem unifyAll_evolves (sound : Sound look unify) (base : Base look S store)
    {l : List A} {f g : A → Ty}
    (ready : ∀ x ∈ l, Ready look S store (f x) ∧ Ready look S store (g x)) :
    Evolves (Kept look S) store (l.forM fun x => unify (f x) (g x)) fun _ _ => True := by
  have run : Evolves (Kept look S) store (l.forM fun x => unify (f x) (g x)) fun _ s =>
      Kept look S store s ∧ ∀ x ∈ l, True := by
    apply Evolves.forM (I := Kept look S store) (refl store) fun _ _ _ _ => id
    intro x mem s kept
    obtain ⟨readyF, readyG⟩ := ready x mem
    apply (sound S s _ _ (base.kept kept) (readyF.kept kept) (readyG.kept kept)).weaken
    exact fun _ s' step _ => ⟨kept.trans step, trivial⟩
  exact run.weaken fun _ _ _ _ => trivial

theorem mergeFields_evolves (sound : Sound look unify) (base : Base look S store)
    {extra1 extra2 : Bool} {fields1 fields2 : List (Label × Ty)}
    (ready : ∀ x ∈ fields1 ++ fields2, Ready look S store x.2) :
    Evolves (Kept look S) store (mergeFields unify extra1 extra2 fields1 fields2)
      fun fields _ => ∀ x ∈ fields, x.2 ∈ (fields1 ++ fields2).map Prod.snd := by
  have extra {allowed : Bool} {x : Label × Ty} (mem : x ∈ fields1 ++ fields2) (s : Store) :
      Evolves (Kept look S) s
        (if !allowed then fails .recordFieldLabelsMismatch else return x.2 : Calling Ty)
        fun u _ => u ∈ (fields1 ++ fields2).map Prod.snd := by
    split
    · exact .raise
    · exact .ret (List.mem_map_of_mem mem)
  apply fieldwise_evolves (I := Kept look S store) (fun _ _ step kept => kept.trans step)
    (refl store)
  · exact fun x mem s _ => extra (List.mem_append_left _ mem) s
  · exact fun x mem s _ => extra (List.mem_append_right _ mem) s
  · intro x memX y memY s kept
    have readyX := (ready x (List.mem_append_left _ memX)).kept kept
    have readyY := (ready y (List.mem_append_right _ memY)).kept kept
    apply Evolves.bind (sound S s x.2 y.2 (base.kept kept) readyX readyY)
    intro _ s' _ _
    exact .ret (List.mem_map_of_mem (List.mem_append_left _ memX))

theorem confined {m : Calling A} {Q : A → Store → Prop}
    (base : Base look S store) (ready : ∀ t ∈ source, Ready look S store t)
    (run : ∀ S', Base look S' store → (∀ t ∈ source, Ready look S' store t) →
      Evolves (Kept look S') store m Q) :
    Evolves (Kept look S) store m fun a s =>
      Q a s ∧ Kept look (reached look.into store source) store s := by
  have inside := run (reached look.into store source) base.reached (ready_reached ready)
  apply Evolves.mono (R := Kept look (reached look.into store source))
  · exact inside.weaken fun a s kept post => ⟨post, kept⟩
  · exact fun s kept => kept.widen base.reached.closed (base.reached_sub ready)

theorem Kept.not_reaches (kept : Kept look (reached look.into store source) store store')
    (out : c ∉ reached look.into store source) (none : ¬Reaches look.into store t c) :
    ¬Reaches look.into store' t c := by
  intro reaches
  have closed : Closed look.into store (reached look.into store source) :=
    closed_reaches { t | t ∈ source }
  exact none (reaches.of_outside look.covers.leaf (kept.closed closed) kept.outside out)

section Resolve

variable (base : Base look S store) (readyVar : Ready look S store (.typeVariableRef var))
  (ready : Ready look S store type) (path : ReflTransGen (Reduces store) type ety)

include readyVar ready path

theorem resolveSuited_evolves {source : List Ty} (free : bindable (store var) = true)
    (adjusted : Adjusted (reached look.into store source) store store')
    (kept : Kept look S store store') (out : var ∉ reached look.into store source)
    (suits : Suits look store' var nesting eq ety)
    (demands : eqOf (store var) = true → eq = true)
    (nests : (∀ k, NestOk store k (.typeVariableRef var) → nesting ≤ k) ∨
      var ∈ look.overloaded ∧ ∀ d, type ≠ .typeVariableRef d) :
    Evolves (Kept look S) store' (assign var (.resolvedTypeVariable type)) fun _ _ => True := by
  have same : store' var = store var := adjusted.outside var out
  have readyVar' := readyVar.kept kept
  have ready' := ready.kept kept
  have path' := adjusted.reduction path
  have free' : bindable (store' var) = true := by
    rw [same]
    exact free
  have suits' := suits.of_reduction free' path'
  apply resolve_evolves readyVar' free' ready'
  · exact not_reached ready'.clear path' free' (readyVar'.shown free') suits.unseen
  · intro is
    rw [same] at is
    exact suits'.admits (demands is)
  · intro tame k ok
    rcases nests with atMost | ⟨overloaded, notVariable⟩
    · apply suits'.nested.mono (atMost k _)
      rwa [NestOk, ← same]
    · apply nested_of_unseen
      intro c
      rcases tame var overloaded type (Function.update_self ..) with closed | ⟨d, is⟩
      · exact unseen_of_free ready'.clear closed
      · exact (notVariable d is).elim

include base

theorem resolveAdjusted_evolves (check : compared (store var) = true)
    (demands : eqOf (store var) = true → eq = true)
    (nests : (∀ k, NestOk store k (.typeVariableRef var) → nesting ≤ k) ∨
      var ∈ look.overloaded ∧ ∀ d, type ≠ .typeVariableRef d) :
    Evolves (Kept look S) store (do
      adjustType fuel ety var nesting eq
      assign var (.resolvedTypeVariable type)) fun _ _ => True := by
  have free := bindable_of_compared check
  have readyEty := ready.reduction base path
  apply Evolves.bind (adjustType_evolves base readyEty check)
  rintro ⟨⟩ s kept ⟨adjusted, suits⟩
  have out := not_reached_of_suits adjusted (by simpa using readyEty) free (readyVar.shown free)
    (by simpa using suits)
  exact resolveSuited_evolves readyVar ready path free adjusted kept out suits demands nests

theorem resolveRecord_evolves (sound : Sound look unify) {knownFields : List (Label × Ty)}
    {names : List Label} {types : List Ty}
    (known : store var = .incompleteRecordTypeVariable knownFields eq nesting)
    (record : ety = .typconType (.recordTyp names) types) :
    Evolves (Kept look S) store (do
      types.forM fun t => adjustType fuel t var nesting eq
      let _ ← mergeFields unify false true knownFields (names.zip types)
      assign var (.resolvedTypeVariable type)) fun _ _ => True := by
  have check : compared (store var) = true := by
    rw [known]
    rfl
  have free := bindable_of_compared check
  have readyTypes : ∀ t ∈ types, Ready look S store t := by
    have readyEty := ready.reduction base path
    subst record
    exact fun t mem => readyEty.arg rfl mem
  have readyKnown : ∀ x ∈ knownFields, Ready look S store x.2 := fun x mem =>
    readyVar.target base (by
      rw [known]
      exact List.mem_map_of_mem mem)
  apply Evolves.bind (adjustAll_evolves (f := id) base readyTypes check)
  rintro ⟨⟩ s kept ⟨adjusted, suits⟩
  rw [List.map_id] at adjusted
  have out := not_reached_of_suits adjusted readyTypes free (readyVar.shown free) suits
  have same : s var = store var := adjusted.outside var out
  have free' : bindable (s var) = true := by
    rw [same]
    exact free
  have base' := base.kept kept
  have readyVar' := readyVar.kept kept
  have ready' := ready.kept kept
  have path' := adjusted.reduction path
  have suitsEty : Suits look s var nesting eq ety := by
    rw [record]
    exact suits_typcon rfl (fun _ => rfl) (fun is _ => is) suits
  have suits' := suitsEty.of_reduction free' path'
  have readyAll : ∀ t ∈ (knownFields ++ names.zip types).map Prod.snd, Ready look S s t := by
    intro t mem
    obtain ⟨x, memX, rfl⟩ := List.mem_map.mp mem
    rcases List.mem_append.mp memX with inKnown | inTypes
    · exact (readyKnown x inKnown).kept kept
    · exact (readyTypes x.2 (List.of_mem_zip inTypes).2).kept kept
  have out' : var ∉ reached look.into s ((knownFields ++ names.zip types).map Prod.snd) := by
    rintro ⟨t, mem, reaches⟩
    obtain ⟨x, memX, rfl⟩ := List.mem_map.mp mem
    rcases List.mem_append.mp memX with inKnown | inTypes
    · have target : x.2 ∈ targets (s var) := by
        rw [same, known]
        exact List.mem_map_of_mem inKnown
      exact base'.acyclic.not_target target reaches
    · have memT := (List.of_mem_zip inTypes).2
      rw [adjusted.reaches] at reaches
      exact out ⟨x.2, memT, reaches⟩
  apply Evolves.bind (confined base' readyAll fun S' small ready' =>
    mergeFields_evolves sound small fun x mem => ready' x.2 (List.mem_map_of_mem mem))
  rintro fields s' kept' ⟨_, inside⟩
  have same' : s' var = store var := (inside.outside var out').trans same
  apply resolve_evolves (readyVar'.kept kept') _ (ready'.kept kept')
  · apply inside.not_reaches out'
    exact not_reached ready'.clear path' free' (readyVar'.shown free') suitsEty.unseen
  · intro is
    rw [same', known] at is
    exact inside.upheld.admits type (suits'.admits is)
  · intro tame k ok
    have tame' := tame.of_update (by rw [same', known]; rfl)
    have nested := inside.upheld.nested tame' nesting type suits'.nested
    apply nested.mono (ok nesting _)
    rw [same', known]
    rfl
  · rw [same']
    exact free

end Resolve

theorem literal_suits {kind : LiteralKind} (literal : MayBeLiteral kind t) (fits : Fits t)
    (normal : HeadNormal store t) (other : ∀ c, t ≠ .typeVariableRef c) :
    Suits look store c nesting (literalIsEqualityKind kind) t := by
  cases t with
  | wildcardType => exact suits_wildcard
  | typeVariableRef d => exact (other d rfl).elim
  | typconType typ args =>
    cases typ with
    | plainTyp record =>
      have none : args = [] := List.eq_nil_of_length_eq_zero (fits.trans literal.1)
      subst none
      apply suits_typcon rfl _ (fun is _ => is) fun _ mem => (List.not_mem_nil mem).elim
      exact fun is => by simp [equalityTyp, literal.2 is]
    | erroneousTyp =>
      have none : args = [] := fits
      subst none
      exact suits_typcon rfl (fun _ => rfl) (fun is _ => is) fun _ mem =>
        (List.not_mem_nil mem).elim
    | definedTyp arity body => exact (normal _ .abbreviation).elim
    | _ => exact literal.elim
  | _ => exact literal.elim

theorem resolveTypeVariable_evolves (sound : Sound look unify)
    (literal : LiteralTypes isLiteralType) (base : Base look S store)
    (readyVar : Ready look S store (.typeVariableRef var)) (ready : Ready look S store type)
    (pruned : Pruned store type) (path : ReflTransGen (Reduces store) type ety)
    (normal : HeadNormal store ety) (other : ∀ c, ety ≠ .typeVariableRef c) :
    Evolves (Kept look S) store (resolveTypeVariable isLiteralType fuel unify var type ety)
      fun _ _ => True := by
  apply Evolves.deref
  have still {A : Type} {a : A} :
      Evolves (Kept look S) store (pure a : Calling A) fun _ _ => True := .ret trivial
  have notVariable : ∀ d, type ≠ .typeVariableRef d := by
    rintro d rfl
    rcases path.cases_head with same | ⟨t, step, _⟩
    · exact other d same.symm
    · cases step with
      | resolved known => simpa [known, isResolved] using pruned d rfl
  have out : var ∉ reached look.into store [] := by
    rintro ⟨t, mem, _⟩
    cases mem
  cases known : store var with
  | metaTypeVariable eq' n =>
    have nests (k : Int) (ok : NestOk store k (.typeVariableRef var)) : n ≤ k :=
      ok n (by rw [known]; rfl)
    dsimp only
    split
    · apply resolveSuited_evolves readyVar ready path (by rw [known]; rfl) (refl store) .refl out
        suits_wildcard _ (.inl nests)
      · exact eq'
      · rw [known]
        exact id
    · apply resolveAdjusted_evolves base readyVar ready path (by rw [known]; rfl) _ (.inl nests)
      rw [known]
      exact id
  | incompleteRecordTypeVariable knownFields eq' n =>
    dsimp only
    split
    · exact resolveRecord_evolves base readyVar ready path sound known rfl
    · have readyWildcard := ready.reduction base path
      apply unifyAll_evolves (f := fun _ => .wildcardType) (g := Prod.snd) sound base
      refine fun x mem => ⟨readyWildcard, readyVar.target base ?_⟩
      rw [known]
      exact List.mem_map_of_mem mem
    · exact .raise
  | overloadedTypeVariable eq' =>
    apply resolveAdjusted_evolves base readyVar ready path (by rw [known]; rfl)
    · rw [known]
      exact id
    · exact .inr ⟨base.overloaded var (by rw [known]; rfl), notVariable⟩
  | literalTypeVariable kind =>
    dsimp only
    split
    · exact still
    · split
      · rename_i isLiteral
        have free : bindable (store var) = true := by
          rw [known]
          rfl
        have suits (n : Int) : Suits look store var n (literalIsEqualityKind kind) ety :=
          literal_suits (literal kind ety isLiteral) (ready.clear.reduction path).here.fits normal
            other
        apply resolve_evolves readyVar free ready
        · exact not_reached ready.clear path free (readyVar.shown free) (suits 0).unseen
        · rw [known]
          exact fun is => admits_of_reduction path ((suits 0).admits is)
        · exact fun _ k _ => nested_of_reduction path (suits k).nested
      · exact .raise
  | userTypeVariable name eq' n =>
    dsimp only
    split
    · exact still
    · exact .raise
  | _ => exact .raise

section Variables

variable {tv1 tv2 : Cell} {knownFields1 knownFields2 : List (Label × Ty)} {eq1 eq2 : Bool}
  {nesting1 nesting2 : Int} (ready1 : Ready look S store (.typeVariableRef tv1))
  (ready2 : Ready look S store (.typeVariableRef tv2))

include ready1 ready2

theorem adjustFields_evolves (base : Base look S store) {nesting' : Int} {eq' : Bool}
    (known : store tv1 = .incompleteRecordTypeVariable knownFields1 eq' nesting')
    (check : compared (store tv2) = true) :
    Evolves (Kept look S) store (knownFields1.forM fun x => adjustType fuel x.2 tv2 nesting eq)
      fun _ s => Adjusted S store s ∧ s tv1 = store tv1 ∧ s tv2 = store tv2 ∧
        ∀ t ∈ knownFields1.map Prod.snd, Suits look s tv2 nesting eq t ∧
          ¬Reaches look.into s t tv1 ∧ ¬Reaches look.into s t tv2 := by
  have free := bindable_of_compared check
  have fields : knownFields1.map Prod.snd = targets (store tv1) := by
    rw [known]
    rfl
  have readyFields : ∀ t ∈ knownFields1.map Prod.snd, Ready look S store t := by
    rw [fields]
    exact fun t mem => ready1.target base mem
  have out1 : tv1 ∉ reached look.into store (knownFields1.map Prod.snd) := by
    rintro ⟨t, mem, reaches⟩
    rw [fields] at mem
    exact base.acyclic.not_target mem reaches
  apply (adjustAll_evolves base
    (fun x mem => readyFields x.2 (List.mem_map_of_mem mem)) check).weaken
  rintro ⟨⟩ s _ ⟨adjusted, suits⟩
  rw [← List.forall_mem_map (P := Suits look s tv2 nesting eq)] at suits
  have out2 := not_reached_of_suits adjusted readyFields free (ready2.shown free) suits
  refine ⟨adjusted.widen (base.reached_sub readyFields), adjusted.outside tv1 out1,
    adjusted.outside tv2 out2, fun t mem => ⟨suits t mem, ?_, ?_⟩⟩
  · exact fun reaches => out1 ⟨t, mem, adjusted.reaches.mp reaches⟩
  · exact fun reaches => out2 ⟨t, mem, adjusted.reaches.mp reaches⟩

variable (other : tv1 ≠ tv2)

include other

theorem link_evolves (free : bindable (store tv2) = true) (none : targets (store tv1) = [])
    (demands : eqOf (store tv2) = true → eqOf (store tv1) = true)
    (nests : ∀ m, nestingOf (store tv1) = some m → ∃ k, nestingOf (store tv2) = some k ∧ m ≤ k) :
    Evolves (Kept look S) store (assign tv2 (.resolvedTypeVariable (.typeVariableRef tv1)))
      fun _ _ => True := by
  have suits (k : Int) (ok : NestOk store k (.typeVariableRef tv2)) :
      Suits look store tv2 k (eqOf (store tv2)) (.typeVariableRef tv1) := by
    apply suits_leaf other.symm none demands
    intro m is
    obtain ⟨k', is', le⟩ := nests m is
    exact le.trans (ok k' is')
  apply resolve_evolves ready2 free ready1
  · intro reaches
    rcases reaches.cases_head with same | ⟨t, step, _⟩
    · exact other (Ty.typeVariableRef.inj same)
    · rw [follow_variable (look.covers.leaf tv1), none] at step
      cases step
  · intro is
    refine Hereditary.intro (demands is) fun u step => ?_
    rw [follow_variable (eqSees_variable tv1)] at step
    have target := eqView_sub step
    rw [none] at target
    cases target
  · exact fun _ k ok => (suits k ok).nested

theorem adjustAndLink_evolves (free : bindable (store tv2) = true)
    (none : targets (store tv1) = []) (alike : Alike (store tv1) typevar)
    (demands : eqOf (store tv2) = true → eqOf typevar = true)
    (nests : ∀ m, nestingOf typevar = some m → ∃ k, nestingOf (store tv2) = some k ∧ m ≤ k) :
    Evolves (Kept look S) store (do
      assign tv1 typevar
      assign tv2 (.resolvedTypeVariable (.typeVariableRef tv1))) fun _ _ => True := by
  have adjusted := Adjusted.assign ready1.mem alike
  apply Evolves.bind (.modify (Q := fun _ s => s = Function.update store tv1 typevar)
    (.of_adjusted adjusted) rfl)
  rintro ⟨⟩ _ kept rfl
  apply link_evolves (ready1.kept kept) (ready2.kept kept) other
  · rwa [Function.update_of_ne other.symm]
  · rw [Function.update_self, alike.targets]
    exact none
  · rwa [Function.update_self, Function.update_of_ne other.symm]
  · rwa [Function.update_self, Function.update_of_ne other.symm]

theorem incompleteMeta_evolves (base : Base look S store)
    (known1 : store tv1 = .incompleteRecordTypeVariable knownFields1 eq1 nesting1)
    (known2 : store tv2 = .metaTypeVariable eq2 nesting2) (le1 : nesting ≤ nesting1)
    (le2 : nesting ≤ nesting2) (more1 : eq1 = true → eq = true) (more2 : eq2 = true → eq = true) :
    Evolves (Kept look S) store (do
      knownFields1.forM fun x => adjustType fuel x.2 tv2 nesting eq
      assign tv1 (.incompleteRecordTypeVariable knownFields1 eq nesting)
      assign tv2 (.resolvedTypeVariable (.typeVariableRef tv1))) fun _ _ => True := by
  apply Evolves.bind (adjustFields_evolves ready1 ready2 base known1 (by rw [known2]; rfl))
  rintro ⟨⟩ s kept ⟨adjusted, same1, same2, each⟩
  rw [known1] at same1
  rw [known2] at same2
  have alike : Alike (s tv1) (.incompleteRecordTypeVariable knownFields1 eq nesting) := by
    rw [same1]
    exact alike_incomplete le1 more1
  have adjusted' := Adjusted.assign ready1.mem alike
  apply Evolves.bind (.modify (Q := fun _ s' => s' = Function.update s tv1
    (.incompleteRecordTypeVariable knownFields1 eq nesting)) (.of_adjusted adjusted') rfl)
  rintro ⟨⟩ _ kept' rfl
  have same2' : Function.update s tv1 (.incompleteRecordTypeVariable knownFields1 eq nesting) tv2 =
      .metaTypeVariable eq2 nesting2 := by
    rw [Function.update_of_ne other.symm, same2]
  have suits (t : Ty) (mem : t ∈ knownFields1.map Prod.snd) := (each t mem).1.adjusted adjusted'
  have suitsRecord : Suits look (Function.update s tv1
      (.incompleteRecordTypeVariable knownFields1 eq nesting)) tv2 nesting eq
      (.typeVariableRef tv1) := by
    apply suits_variable other.symm
    · rw [Function.update_self]
      exact id
    · rw [Function.update_self]
      exact fun m is => (Option.some.inj is).ge
    · rw [Function.update_self]
      exact fun t mem => (suits t mem).unseen
    · intro is t target
      have mem := eqView_sub target
      rw [Function.update_self] at mem
      exact (suits t mem).admits is
    · rw [Function.update_self]
      exact fun t mem => (suits t mem).nested
  apply resolve_evolves ((ready2.kept kept).kept kept') _ ((ready1.kept kept).kept kept')
  · intro reaches
    rcases reaches.cases_head with same | ⟨t, step, rest⟩
    · exact other (Ty.typeVariableRef.inj same)
    · rw [follow_variable (look.covers.leaf tv1), Function.update_self] at step
      exact (each t step).2.2 (adjusted'.reaches.mp rest)
  · rw [same2']
    exact fun is => suitsRecord.admits (more2 is)
  · intro _ k ok
    rw [NestOk, same2'] at ok
    exact suitsRecord.nested.mono (le2.trans (ok nesting2 rfl))
  · rw [same2']
    rfl

theorem incompleteIncomplete_evolves (sound : Sound look unify) (base : Base look S store)
    (known1 : store tv1 = .incompleteRecordTypeVariable knownFields1 eq1 nesting1)
    (known2 : store tv2 = .incompleteRecordTypeVariable knownFields2 eq2 nesting2)
    (le1 : nesting ≤ nesting1) (le2 : nesting ≤ nesting2) (more1 : eq1 = true → eq = true)
    (more2 : eq2 = true → eq = true) :
    Evolves (Kept look S) store (do
      knownFields2.forM fun x => adjustType fuel x.2 tv1 nesting eq
      knownFields1.forM fun x => adjustType fuel x.2 tv2 nesting eq
      let knownFields ← mergeFields unify true true knownFields1 knownFields2
      assign tv1 (.incompleteRecordTypeVariable knownFields eq nesting)
      assign tv2 (.resolvedTypeVariable (.typeVariableRef tv1))) fun _ _ => True := by
  apply Evolves.bind (adjustFields_evolves ready2 ready1 base known2 (by rw [known1]; rfl))
  rintro ⟨⟩ s₁ kept₁ ⟨adjusted₁, same2₁, same1₁, each2⟩
  rw [known1] at same1₁
  rw [known2] at same2₁
  apply Evolves.bind (adjustFields_evolves (ready1.kept kept₁) (ready2.kept kept₁)
    (base.kept kept₁) same1₁ (by rw [same2₁]; rfl))
  rintro ⟨⟩ s kept₂ ⟨adjusted₂, same1, same2, each1⟩
  rw [same1₁] at same1
  rw [same2₁] at same2
  have kept := kept₁.trans kept₂
  have base' := base.kept kept
  have ready1' := ready1.kept kept
  have ready2' := ready2.kept kept
  -- What both lists of fields are, before they are merged.
  have each : ∀ t ∈ (knownFields1 ++ knownFields2).map Prod.snd, Ready look S s t ∧
      (eq = true → Admits look.lax s t) ∧ Nested nesting s t ∧
      ¬Reaches look.into s t tv1 ∧ ¬Reaches look.into s t tv2 := by
    intro t mem
    rw [List.map_append, List.mem_append] at mem
    rcases mem with mem | mem
    · have target : t ∈ targets (s tv1) := by
        rw [same1]
        exact mem
      obtain ⟨suits, none1, none2⟩ := each1 t mem
      exact ⟨ready1'.target base' target, suits.admits, suits.nested, none1, none2⟩
    · have target : t ∈ targets (s tv2) := by
        rw [same2]
        exact mem
      obtain ⟨suits, none2, none1⟩ := each2 t mem
      have suits' := suits.adjusted adjusted₂
      rw [← adjusted₂.reaches] at none1 none2
      exact ⟨ready2'.target base' target, suits'.admits, suits'.nested, none1, none2⟩
  have out1 : tv1 ∉ reached look.into s ((knownFields1 ++ knownFields2).map Prod.snd) := by
    rintro ⟨t, mem, reaches⟩
    exact (each t mem).2.2.2.1 reaches
  have out2 : tv2 ∉ reached look.into s ((knownFields1 ++ knownFields2).map Prod.snd) := by
    rintro ⟨t, mem, reaches⟩
    exact (each t mem).2.2.2.2 reaches
  apply Evolves.bind (confined base' (fun t mem => (each t mem).1) fun S' small ready' =>
    mergeFields_evolves sound small fun x mem => ready' x.2 (List.mem_map_of_mem mem))
  rintro fields s' kept₃ ⟨from_, inside⟩
  have same1' : s' tv1 = _ := (inside.outside tv1 out1).trans same1
  have same2' : s' tv2 = _ := (inside.outside tv2 out2).trans same2
  have merged : ∀ t ∈ fields.map Prod.snd, Ready look S s' t ∧
      (eq = true → Admits look.lax s' t) ∧
      (Tame look.overloaded s' → Nested nesting s' t) ∧
      ¬Reaches look.into s' t tv1 ∧ ¬Reaches look.into s' t tv2 := by
    intro t mem
    obtain ⟨x, memX, rfl⟩ := List.mem_map.mp mem
    obtain ⟨ready, admits, nested, none1, none2⟩ := each x.2 (from_ x memX)
    exact ⟨ready.kept kept₃, fun is => kept₃.upheld.admits x.2 (admits is),
      fun tame => kept₃.upheld.nested tame nesting x.2 nested, inside.not_reaches out1 none1,
      inside.not_reaches out2 none2⟩
  have kept' := kept.trans kept₃
  have free1 : bindable (s' tv1) = true := by
    rw [same1']
    rfl
  have keptRecord : Kept look S s'
      (Function.update s' tv1 (.incompleteRecordTypeVariable fields eq nesting)) := by
    apply Kept.update (ready1'.kept kept₃) free1
    · exact fun t mem => ⟨(merged t mem).1, (merged t mem).2.2.2.1⟩
    · apply Upheld.update (isResolved_of_bindable free1)
      · rw [same1']
        exact flags_incomplete le1 more1
      · intro is t target
        rw [same1'] at is
        have mem := eqView_sub target
        rw [Function.update_self] at mem
        exact (merged t mem).2.1 (more1 is)
      · intro tame k ok t mem
        have tame' := tame.of_update (isResolved_of_bindable free1)
        rw [NestOk, same1'] at ok
        exact ((merged t mem).2.2.1 tame').mono (le1.trans (ok nesting1 rfl))
  apply Evolves.bind (.modify (Q := fun _ s'' => s'' = Function.update s' tv1
    (.incompleteRecordTypeVariable fields eq nesting)) keptRecord rfl)
  rintro ⟨⟩ _ kept₄ rfl
  have same2'' : Function.update s' tv1 (.incompleteRecordTypeVariable fields eq nesting) tv2 =
      .incompleteRecordTypeVariable knownFields2 eq2 nesting2 := by
    rw [Function.update_of_ne other.symm, same2']
  apply resolve_evolves ((ready2.kept kept').kept kept₄) _ ((ready1.kept kept').kept kept₄)
  · intro reaches
    rcases reaches.cases_head with same | ⟨t, step, rest⟩
    · exact other (Ty.typeVariableRef.inj same)
    · rw [follow_variable (look.covers.leaf tv1), Function.update_self] at step
      rcases Reaches.of_update rest with to2 | to1
      · exact (merged t step).2.2.2.2 to2
      · exact (merged t step).2.2.2.1 to1
  · rw [same2'']
    intro is
    refine Hereditary.intro ?_ fun t step => ?_
    · rw [EqOk, Function.update_self]
      exact more2 is
    · rw [follow_variable (eqSees_variable tv1)] at step
      have mem := eqView_sub step
      rw [Function.update_self] at mem
      exact kept₄.upheld.admits t ((merged t mem).2.1 (more2 is))
  · intro tame k ok
    have tame₄ := tame.of_update (by rw [same2'']; rfl)
    rw [NestOk, same2''] at ok
    have le := le2.trans (ok nesting2 rfl)
    refine Hereditary.intro ?_ fun t step => ?_
    · rw [NestOk, Function.update_self]
      exact fun m is => Option.some.inj is ▸ le
    · rw [follow_variable (sees_variable tv1), Function.update_self] at step
      have nested := (merged t step).2.2.1 (kept₄.upheld.tame tame₄)
      exact (kept₄.upheld.nested tame₄ nesting t nested).mono le
  · rw [same2'']
    rfl

theorem unifyTypeVariables'_evolves (sound : Sound look unify) (base : Base look S store) :
    Evolves (Kept look S) store (unifyTypeVariables' fuel unify tv1 tv2) fun _ _ => True := by
  apply Evolves.deref
  apply Evolves.deref
  have link := link_evolves ready1 ready2 other
  have adjustAndLink {typevar : TypeVariable} := @adjustAndLink_evolves look store S typevar tv1 tv2
    ready1 ready2 other
  cases known1 : store tv1 with
  | metaTypeVariable eq1 n1 =>
    rw [known1] at adjustAndLink
    cases known2 : store tv2 with
    | metaTypeVariable eq2 n2 =>
      rw [known2] at adjustAndLink
      apply adjustAndLink rfl rfl
      · exact alike_meta (min_le_left _ _) fun is => by simp [is]
      · exact fun is => by simp_all [eqOf]
      · exact fun m is => ⟨n2, rfl, Option.some.inj is ▸ min_le_right _ _⟩
    | _ => exact .raise
  | userTypeVariable name eq1 n1 =>
    rw [known1] at link adjustAndLink
    cases known2 : store tv2 with
    | metaTypeVariable eq2 n2 =>
      rw [known2] at link adjustAndLink
      dsimp only
      split
      · rename_i admitted
        have demands : eq2 = true → eq1 = true := by
          rintro rfl
          simpa using admitted
        split
        · rename_i less
          exact adjustAndLink rfl rfl (alike_user less.le) demands fun m is =>
            ⟨n2, rfl, (Option.some.inj is).ge⟩
        · rename_i notLess
          exact link rfl rfl demands fun m is =>
            ⟨n2, rfl, (Option.some.inj is).ge.trans (not_lt.mp notLess)⟩
      · exact .raise
    | _ => exact .raise
  | incompleteRecordTypeVariable knownFields1 eq1 n1 =>
    cases known2 : store tv2 with
    | metaTypeVariable eq2 n2 =>
      exact incompleteMeta_evolves ready1 ready2 other base known1 known2 (min_le_left _ _)
        (min_le_right _ _) (fun is => by simp [is]) fun is => by simp [is]
    | incompleteRecordTypeVariable knownFields2 eq2 n2 =>
      exact incompleteIncomplete_evolves ready1 ready2 other sound base known1 known2
        (min_le_left _ _) (min_le_right _ _) (fun is => by simp [is]) fun is => by simp [is]
    | _ => exact .raise
  | literalTypeVariable kind =>
    rw [known1] at link
    cases known2 : store tv2 with
    | literalTypeVariable kind' =>
      rw [known2] at link
      dsimp only
      split
      · rename_i same
        subst same
        exact link rfl rfl id fun _ is => by cases is
      · exact .raise
    | metaTypeVariable e2 n2 =>
      rw [known2] at link
      dsimp only
      split
      · rename_i admitted
        apply link rfl rfl _ fun _ is => by cases is
        rintro rfl
        simpa [eqOf] using admitted
      · exact .raise
    | overloadedTypeVariable e2 =>
      rw [known2] at link
      dsimp only
      split
      · rename_i admitted
        apply link rfl rfl _ fun _ is => by cases is
        rintro rfl
        simpa [eqOf] using admitted
      · exact .raise
    | _ => exact .raise
  | overloadedTypeVariable eq1 =>
    rw [known1] at link adjustAndLink
    cases known2 : store tv2 with
    | overloadedTypeVariable eq2 =>
      rw [known2] at link
      dsimp only
      split
      · rename_i admitted
        apply link rfl rfl _ fun _ is => by cases is
        rintro rfl
        simpa [eqOf] using admitted
      · rename_i admitted
        apply link_evolves ready2 ready1 other.symm
        · rw [known1]
          rfl
        · rw [known2]
          rfl
        · rw [known1, known2]
          intro _
          simp_all [eqOf]
        · rw [known2]
          rintro _ ⟨⟩
    | metaTypeVariable eq2 n2 =>
      rw [known2] at link adjustAndLink
      dsimp only
      split
      · rename_i admitted
        apply link rfl rfl _ fun _ is => by cases is
        rintro rfl
        simpa [eqOf] using admitted
      · rename_i admitted
        have more : eq1 = false ∧ eq2 = true := by simpa using admitted
        apply adjustAndLink rfl rfl (alike_overloaded _) id fun _ is => by cases is
        exact fun _ => more.2
    | _ => exact .raise
  | _ => exact .raise

end Variables

theorem sortVars_cases (store : Store) (tv1 tv2 : Cell) :
    sortVars store tv1 tv2 = (tv1, tv2) ∨ sortVars store tv1 tv2 = (tv2, tv1) := by
  unfold sortVars
  split <;> simp

theorem unifyTypeVariables_evolves {tv1 tv2 : Cell} (sound : Sound look unify)
    (base : Base look S store) (ready1 : Ready look S store (.typeVariableRef tv1))
    (ready2 : Ready look S store (.typeVariableRef tv2)) :
    Evolves (Kept look S) store (unifyTypeVariables fuel unify tv1 tv2) fun _ _ => True := by
  unfold unifyTypeVariables
  split
  · rename_i other
    apply Evolves.state
    rcases sortVars_cases store tv1 tv2 with same | swapped
    · rw [same]
      exact unifyTypeVariables'_evolves ready1 ready2 other sound base
    · rw [swapped]
      exact unifyTypeVariables'_evolves ready2 ready1 (Ne.symm other) sound base
  · exact .ret trivial

theorem HeadNormal.plain {typ : Typ} {args : List Ty}
    (normal : HeadNormal store (.typconType typ args)) : typ.isDefined = false := by
  cases typ with
  | definedTyp arity body => exact (normal _ .abbreviation).elim
  | _ => rfl

theorem unifyTypes'_evolves (sound : Sound look unify) (literal : LiteralTypes isLiteralType)
    (base : Base look S store) (ready1 : Ready look S store t1) (ready2 : Ready look S store t2)
    (pruned1 : Pruned store t1) (pruned2 : Pruned store t2) :
    Evolves (Kept look S) store (unifyTypes' isLiteralType fuel unify t1 t2)
      fun _ _ => True := by
  apply Evolves.state
  apply Evolves.lift_bind
  intro etype1 result1
  apply Evolves.state
  apply Evolves.lift_bind
  intro etype2 result2
  obtain ⟨path1, normal1⟩ := headReduceType_ok ready1.clear result1
  obtain ⟨path2, normal2⟩ := headReduceType_ok ready2.clear result2
  have readyE1 := ready1.reduction base path1
  have readyE2 := ready2.reduction base path2
  split
  · exact unifyTypeVariables_evolves sound base readyE1 readyE2
  · rename_i other
    exact resolveTypeVariable_evolves sound literal base readyE1 ready2 pruned2 path2 normal2 other
  · rename_i other
    exact resolveTypeVariable_evolves sound literal base readyE2 ready1 pruned1 path1 normal1 other
  · split
    · apply unifyAll_evolves (f := Prod.fst) (g := Prod.snd) sound base
      intro x mem
      have both := List.of_mem_zip mem
      exact ⟨readyE1.arg normal1.plain both.1, readyE2.arg normal2.plain both.2⟩
    · exact .raise
  · apply unifyAll_evolves (f := id) (g := fun _ => .wildcardType) sound base
    exact fun x mem => ⟨readyE2.arg normal2.plain mem, readyE1⟩
  · apply unifyAll_evolves (f := id) (g := fun _ => .wildcardType) sound base
    exact fun x mem => ⟨readyE1.arg normal1.plain mem, readyE2⟩
  · exact .ret trivial
  · exact .ret trivial
  · exact .raise

theorem unifyTypes_sound (literal : LiteralTypes isLiteralType) (fuel : Nat) :
    Sound look (unifyTypes isLiteralType fuel) := by
  induction fuel with
  | zero =>
    intro S store t1 t2 base ready1 ready2
    exact .raise
  | succ fuel ih =>
    intro S store t1 t2 base ready1 ready2
    apply Evolves.bind (prune_evolves base ready1)
    rintro t1' s kept ⟨_, ready1', pruned1⟩
    have base' := base.kept kept
    apply Evolves.bind (prune_evolves base' (ready2.kept kept))
    rintro t2' s' kept' ⟨short, ready2', pruned2⟩
    apply unifyTypes'_evolves ih literal (base'.kept kept') (ready1'.kept kept') ready2' _ pruned2
    intro c is
    rw [short.resolved]
    exact pruned1 c is

end Keeping

end Mythryl.UnifyTypes
