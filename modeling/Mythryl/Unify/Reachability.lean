import Mythryl.Redirection
import Mythryl.Unify.Types

/-! # What a type leads to -/

namespace Mythryl.UnifyTypes
open Relation

def targets : TypeVariable → List Ty
  | .resolvedTypeVariable type => [type]
  | .incompleteRecordTypeVariable knownFields _ _ => knownFields.map Prod.snd
  | _ => []

def bindable : TypeVariable → Bool
  | .metaTypeVariable .. | .incompleteRecordTypeVariable .. => true
  | .overloadedTypeVariable _ | .literalTypeVariable _ => true
  | .userTypeVariable .. | .resolvedTypeVariable _ | .typeVariableMark _ => false

inductive Part : Ty → Ty → Prop
  | arg {typ : Typ} {args : List Ty} {t : Ty} : t ∈ args → Part (.typconType typ args) t
  | body {eqs : List Bool} {arity : Nat} {body : Ty} : Part (.typeSchemeType eqs arity body) body

inductive Follow (into : Ty → Ty → Prop) (store : Store) : Ty → Ty → Prop
  | into {t u : Ty} : into t u → Follow into store t u
  | target {c : Cell} {t : Ty} : t ∈ targets (store c) → Follow into store (.typeVariableRef c) t

section Definitions

variable (into : Ty → Ty → Prop)

def Occurs (t : Ty) (c : Cell) : Prop := ReflTransGen into t (.typeVariableRef c)

def Reaches (store : Store) (t : Ty) (c : Cell) : Prop :=
  ReflTransGen (Follow into store) t (.typeVariableRef c)

def Acyclic (store : Store) : Prop :=
  ∀ c, ¬TransGen (Follow into store) (.typeVariableRef c) (.typeVariableRef c)

def Within (S : Set Cell) (t : Ty) : Prop := ∀ c, Occurs into t c → c ∈ S

def Closed (store : Store) (S : Set Cell) : Prop :=
  ∀ c ∈ S, ∀ t ∈ targets (store c), Within into S t

end Definitions

section Steps

variable {into : Ty → Ty → Prop} {store store' : Store} {S S' : Set Cell} {t u type : Ty}
  {c d v : Cell} {typevar : TypeVariable} {typ : Typ} {args : List Ty}

theorem follow_variable (leaf : ∀ t, ¬into (.typeVariableRef c) t) :
    Follow into store (.typeVariableRef c) t ↔ t ∈ targets (store c) := by
  constructor
  · intro step
    cases step with
    | into inner => exact (leaf _ inner).elim
    | target mem => exact mem
  · exact .target

theorem part_variable (c : Cell) (t : Ty) : ¬Part (.typeVariableRef c) t := nofun

theorem within_variable (leaf : ∀ t, ¬into (.typeVariableRef c) t) :
    Within into S (.typeVariableRef c) ↔ c ∈ S := by
  constructor
  · exact fun within => within c .refl
  · intro mem d path
    rcases path.cases_head with same | ⟨t, inner, _⟩
    · exact Ty.typeVariableRef.inj same ▸ mem
    · exact (leaf t inner).elim

theorem Within.inner (within : Within into S t) (inner : into t u) : Within into S u :=
  fun c occurs => within c (.head inner occurs)

theorem Within.mono (within : Within into S t) (sub : S ⊆ S') : Within into S' t :=
  fun c occurs => sub (within c occurs)

theorem Closed.follow (closed : Closed into store S) (within : Within into S t)
    (step : Follow into store t u) : Within into S u := by
  cases step with
  | into inner => exact within.inner inner
  | target mem => exact closed _ (within _ .refl) u mem

theorem Closed.reaches (closed : Closed into store S) (within : Within into S t)
    (reaches : Reaches into store t c) : c ∈ S := by
  have there := Redirection.stays (P := { t | Within into S t })
    (fun _ within _ step => closed.follow within step) within reaches
  exact there c .refl

theorem Reaches.occurs (occurs : Occurs into t c) : Reaches into store t c :=
  occurs.lift id fun _ _ => .into

theorem within_reaches (source : Set Ty) (mem : t ∈ source) :
    Within into { c | ∃ t ∈ source, Reaches into store t c } t := fun _ occurs =>
  ⟨t, mem, .occurs occurs⟩

theorem closed_reaches (source : Set Ty) :
    Closed into store { c | ∃ t ∈ source, Reaches into store t c } := by
  rintro c ⟨t, mem, reaches⟩ u target d occurs
  exact ⟨t, mem, (reaches.tail (.target target)).trans (Reaches.occurs occurs)⟩

theorem Follow.other (same : ∀ c, t = .typeVariableRef c → targets (store c) = targets (store' c))
    (step : Follow into store t u) : Follow into store' t u := by
  cases step with
  | into inner => exact .into inner
  | target mem => exact .target (same _ rfl ▸ mem)

theorem follow_same (same : ∀ c, targets (store c) = targets (store' c)) :
    Follow into store = Follow into store' := by
  funext t u
  apply propext
  constructor
  · exact Follow.other fun c _ => same c
  · exact Follow.other fun c _ => (same c).symm

theorem follow_update (other : t ≠ .typeVariableRef v) :
    Follow into (Function.update store v typevar) t u ↔ Follow into store t u := by
  have same (c : Cell) (is : t = .typeVariableRef c) :
      targets (Function.update store v typevar c) = targets (store c) := by
    rw [Function.update_of_ne]
    rintro rfl
    exact other is
  constructor
  · exact Follow.other same
  · exact Follow.other fun c is => (same c is).symm

theorem Reaches.of_update (reaches : Reaches into (Function.update store v typevar) t c) :
    Reaches into store t c ∨ Reaches into store t v := by
  rcases Redirection.first_redirected (P := { .typeVariableRef v })
    (fun a other b => (follow_update other).mp) reaches with whole | ⟨p, rfl, upTo, _⟩
  · exact .inl whole
  · exact .inr upTo

theorem Reaches.of_outside (leaf : ∀ c t, ¬into (.typeVariableRef c) t)
    (closed : Closed into store' S) (outside : ∀ d ∉ S, store' d = store d) (mem : c ∉ S)
    (reaches : Reaches into store' t c) : Reaches into store t c := by
  have same (a : Ty) (other : a ∉ { a | ∃ d ∈ S, a = .typeVariableRef d }) (b : Ty) :
      Follow into store' a b → Follow into store a b := by
    apply Follow.other
    rintro d rfl
    rw [outside d fun mem => other ⟨d, mem, rfl⟩]
  rcases Redirection.first_redirected same reaches with whole | ⟨_, ⟨d, memD, rfl⟩, _, rest⟩
  · exact whole
  · exact (mem (closed.reaches ((within_variable (leaf d)).mpr memD) rest)).elim

theorem Acyclic.update (leaf : ∀ c t, ¬into (.typeVariableRef c) t)
    (fresh : ∀ t ∈ targets typevar, ¬Reaches into store t v) (acyclic : Acyclic into store) :
    Acyclic into (Function.update store v typevar) := by
  intro c
  apply Redirection.acyclic_redirected (r := Follow into store) (v := .typeVariableRef v)
  · exact fun a other b => (follow_update other).mp
  · intro t step
    rw [follow_variable (leaf v), Function.update_self] at step
    exact fresh t step
  · exact acyclic c

theorem Acyclic.not_target (acyclic : Acyclic into store) (mem : t ∈ targets (store c)) :
    ¬Reaches into store t c := fun reaches => acyclic c (.head' (.target mem) reaches)

end Steps

/-! # Reduction of abbreviations -/

mutual

def inst (args : List Ty) : Ty → Ty
  | .typeSchemeArg n => args.getD n (.typeSchemeArg n)
  | .typconType typ args' => .typconType typ (instAll args args')
  | t => t

def instAll (args : List Ty) : List Ty → List Ty
  | [] => []
  | t :: ts => inst args t :: instAll args ts

end

def reduct (arity : Nat) (body : Ty) (args : List Ty) : Ty :=
  if arity > 0 then inst args body else body

def Typ.isDefined : Typ → Bool
  | .definedTyp .. => true
  | _ => false

inductive Reduces (store : Store) : Ty → Ty → Prop
  | abbreviation {arity : Nat} {body : Ty} {args : List Ty} :
      Reduces store (.typconType (.definedTyp arity body) args) (reduct arity body args)
  | scheme {body : Ty} : Reduces store (.typeSchemeType [] 0 body) body
  | resolved {c : Cell} {t : Ty} : store c = .resolvedTypeVariable t →
      Reduces store (.typeVariableRef c) t

def HeadNormal (store : Store) (t : Ty) : Prop := ∀ u, ¬Reduces store t u

/-- A step into a type that has its abbreviations reduced first. -/
inductive Sees : Ty → Ty → Prop
  | arg {typ : Typ} {args : List Ty} {t : Ty} : typ.isDefined = false → t ∈ args →
      Sees (.typconType typ args) t
  | reduct {arity : Nat} {body : Ty} {args : List Ty} :
      Sees (.typconType (.definedTyp arity body) args) (reduct arity body args)
  | body {eqs : List Bool} {arity : Nat} {body : Ty} : Sees (.typeSchemeType eqs arity body) body

def ClosedBody : Ty → Prop
  | .typconType (.definedTyp _ body) _ => ∀ c, ¬Occurs Part body c
  | _ => True

structure Covers (into : Ty → Ty → Prop) : Prop where
  leaf : ∀ c t, ¬into (.typeVariableRef c) t
  arg {typ : Typ} {args : List Ty} {t : Ty} : typ.isDefined = false → t ∈ args →
    into (.typconType typ args) t
  sees {t u : Ty} {c : Cell} : Sees t u → ClosedBody t → Occurs into u c → Occurs into t c

section Reducing

variable {store : Store} {args : List Ty} {t u x body type : Ty} {c : Cell} {S : Set Cell}
  {fuel arity : Nat}

theorem instAll_eq (args ts : List Ty) : instAll args ts = ts.map (inst args) := by
  induction ts with
  | nil => rfl
  | cons t ts ih => simp [instAll, ih]

variable {A B : Type}

theorem map_ok_iff {m : Except Raised A} {f : A → B} {b : B} :
    f <$> m = .ok b ↔ ∃ a, m = .ok a ∧ f a = b := by
  cases m <;> simp [Functor.map, Except.map]

theorem pure_ok_iff {a b : A} : (pure a : Except Raised A) = .ok b ↔ a = b := by
  simp [pure, Except.pure]

theorem getD_map_eq (r : Option A) (f : A → B) (a : A) (b : B) (same : f a = b) :
    (r.map f).getD b = f (r.getD a) := by
  cases r <;> simp [same]

theorem shareMap_ok {f : Ty → Except Raised (Option Ty)} {g : Ty → Ty} {l : List Ty}
    {shared : Option (List Ty)} (each : ∀ t ∈ l, ∀ r, f t = .ok r → r.getD t = g t)
    (result : shareMap f l = .ok shared) : shared.getD l = l.map g := by
  induction l generalizing shared with
  | nil =>
    cases result
    rfl
  | cons x l ih =>
    have rest {r : Option (List Ty)} := @ih r fun t mem => each t (List.mem_cons_of_mem x mem)
    have first := each x List.mem_cons_self
    simp only [shareMap, bind_eq_ok] at result
    obtain ⟨x', ranHead, result⟩ := result
    have head := first x' ranHead
    cases x' with
    | none =>
      simp only [bind_eq_ok, pure_ok_iff] at result
      obtain ⟨l', ranTail, rfl⟩ := result
      rw [getD_map_eq l' _ l _ rfl, rest ranTail]
      simp [← head]
    | some x' =>
      simp only [bind_eq_ok, pure_ok_iff] at result
      obtain ⟨l', ranTail, rfl⟩ := result
      simp [← head, ← rest ranTail]

theorem substitute_ok {r : Option Ty} (closed : ∀ c, ¬Occurs Part body c)
    (result : substitute store args fuel body = .ok r) : r.getD body = inst args body := by
  induction fuel generalizing body r with
  | zero => cases result
  | succ fuel ih =>
    cases body with
    | typeVariableRef c => exact (closed c .refl).elim
    | typeSchemeArg n =>
      cases found : args[n]? with
      | none =>
        simp [substitute, found, throw, throwThe, MonadExceptOf.throw] at result
      | some arg =>
        simp only [substitute, found, pure_ok_iff] at result
        subst result
        simp [inst, found]
    | typconType typ args' =>
      simp only [substitute, bind_eq_ok, pure_ok_iff] at result
      obtain ⟨shared, ran, rfl⟩ := result
      have each : ∀ t ∈ args', ∀ r, substitute store args fuel t = .ok r →
          r.getD t = inst args t :=
        fun t mem r => ih fun c occurs => closed c (.head (.arg mem) occurs)
      rw [getD_map_eq shared _ args' _ rfl, shareMap_ok each ran, inst, instAll_eq]
    | wildcardType | undefinedType | typeSchemeType eqs arity body =>
      cases result
      rfl

theorem applyTypeScheme_ok (closed : ∀ c, ¬Occurs Part body c)
    (result : applyTypeScheme store fuel arity body args = .ok t) : t = reduct arity body args := by
  unfold applyTypeScheme at result
  unfold reduct
  split at result
  · rename_i positive
    simp only [bind_eq_ok, pure_ok_iff] at result
    obtain ⟨r, ran, rfl⟩ := result
    rw [if_pos positive]
    exact substitute_ok closed ran
  · rename_i none
    rw [if_neg none]
    rw [pure_ok_iff] at result
    exact result.symm

theorem reduceType_some (closed : ClosedBody t) (result : reduceType store fuel t = .ok (some u)) :
    Reduces store t u := by
  unfold reduceType at result
  split at result
  · simp only [map_ok_iff] at result
    obtain ⟨u', ran, same⟩ := result
    cases same
    rw [applyTypeScheme_ok closed ran]
    exact .abbreviation
  · cases result
    exact .scheme
  · split at result
    · cases result
      exact .resolved ‹_›
    · cases result
  · cases result

theorem reduceType_none (result : reduceType store fuel t = .ok none) : HeadNormal store t := by
  intro u step
  cases step with
  | abbreviation =>
    simp [reduceType, map_ok_iff] at result
  | scheme =>
    simp [reduceType, pure_ok_iff] at result
  | resolved known =>
    simp [reduceType, known, pure_ok_iff] at result

theorem Reduces.follow (step : Reduces store t u) : Follow Sees store t u := by
  cases step with
  | abbreviation => exact .into .reduct
  | scheme => exact .into .body
  | resolved known => exact .target (by simp [targets, known])

theorem Reduces.only (step : Reduces store t u) (seen : Follow Sees store t x) : x = u := by
  cases step with
  | abbreviation =>
    cases seen with
    | into sees =>
      cases sees with
      | arg plain _ => cases plain
      | reduct => rfl
  | scheme =>
    cases seen with
    | into sees =>
      cases sees
      rfl
  | resolved known =>
    cases seen with
    | into sees => cases sees
    | target mem => simpa [targets, known] using mem

theorem seen_of_reduces (free : bindable (store c) = true)
    (reduction : ReflTransGen (Reduces store) t u)
    (seen : ReflTransGen (Follow Sees store) t (.typeVariableRef c)) :
    ReflTransGen (Follow Sees store) u (.typeVariableRef c) := by
  induction reduction using ReflTransGen.head_induction_on with
  | refl => exact seen
  | @head t t' step rest ih =>
    rcases seen.cases_head with rfl | ⟨x, first, later⟩
    · cases step with
      | resolved known => simp [known, bindable] at free
    · rw [step.only first] at later
      exact ih later

theorem occurs_typcon {typ : Typ} (occurs : Occurs Part (.typconType typ args) c) :
    ∃ t ∈ args, Occurs Part t c := by
  rcases occurs.cases_head with same | ⟨t, part, rest⟩
  · cases same
  · cases part with
    | arg mem => exact ⟨t, mem, rest⟩

theorem occurs_inst (t : Ty) (closed : ∀ c, ¬Occurs Part t c) (occurs : Occurs Part (inst args t) c) :
    ∃ arg ∈ args, Occurs Part arg c := by
  match t with
  | .typeSchemeArg n =>
    rw [inst, List.getD_eq_getElem?_getD] at occurs
    cases found : args[n]? with
    | none =>
      rw [found] at occurs
      exact (closed c occurs).elim
    | some arg =>
      rw [found] at occurs
      exact ⟨arg, List.mem_of_getElem? found, occurs⟩
  | .typconType typ ts =>
    rw [inst, instAll_eq] at occurs
    obtain ⟨t', mem, occurs'⟩ := occurs_typcon occurs
    obtain ⟨t, memT, rfl⟩ := List.mem_map.mp mem
    exact occurs_inst t (fun d there => closed d (.head (.arg memT) there)) occurs'
  | .typeVariableRef _ => exact (closed _ .refl).elim
  | .typeSchemeType .. => exact (closed c occurs).elim
  | .wildcardType => exact (closed c occurs).elim
  | .undefinedType => exact (closed c occurs).elim
termination_by sizeOf t
decreasing_by
  have smaller := List.sizeOf_lt_of_mem memT
  simp
  omega

theorem occurs_reduct (closed : ∀ c, ¬Occurs Part body c)
    (occurs : Occurs Part (reduct arity body args) c) : ∃ arg ∈ args, Occurs Part arg c := by
  unfold reduct at occurs
  split at occurs
  · exact occurs_inst body closed occurs
  · exact (closed c occurs).elim

theorem covers_part : Covers Part where
  leaf := part_variable
  arg _ mem := .arg mem
  sees := by
    intro t u c sees closed occurs
    cases sees with
    | arg _ mem => exact .head (.arg mem) occurs
    | body => exact .head .body occurs
    | reduct =>
      obtain ⟨arg, mem, occurs'⟩ := occurs_reduct closed occurs
      exact .head (.arg mem) occurs'

theorem covers_sees : Covers Sees where
  leaf _ _ := nofun
  arg plain mem := .arg plain mem
  sees sees _ occurs := .head sees occurs

theorem Reduces.within {into : Ty → Ty → Prop} (covers : Covers into) (closedBody : ClosedBody t)
    (closed : Closed into store S) (within : Within into S t) (step : Reduces store t u) :
    Within into S u := by
  cases step with
  | abbreviation => exact fun c occurs => within c (covers.sees .reduct closedBody occurs)
  | scheme => exact fun c occurs => within c (covers.sees .body trivial occurs)
  | resolved known => exact closed _ (within _ .refl) _ (by simp [targets, known])

end Reducing

/-! # What the occurs check sees -/

def Seen (store : Store) (t : Ty) (c : Cell) : Prop :=
  ReflTransGen (Follow Sees store) t (.typeVariableRef c)

def Fits : Ty → Prop
  | .typconType (.plainTyp record) args => args.length = record.arity
  | .typconType .erroneousTyp args => args = []
  | _ => True

section Definitions

variable (into : Ty → Ty → Prop) (store : Store) (hidden : Set Cell)

structure Fair (t : Ty) : Prop where
  body : ClosedBody t
  fits : Fits t
  visible : ∀ c, t = .typeVariableRef c → bindable (store c) = true → c ∉ hidden
  dropped : ∀ u, into t u → ¬ReflTransGen Sees t u →
    ∀ c, Reaches into store u c → bindable (store c) = true → c ∈ hidden

def Clear (t : Ty) : Prop := ∀ u, ReflTransGen (Follow Sees store) t u → Fair into store hidden u

end Definitions

inductive Link (store : Store) : Ty → Ty → Prop
  | resolved {c : Cell} {t : Ty} : store c = .resolvedTypeVariable t →
      Link store (.typeVariableRef c) t

def Shortened (store store' : Store) : Prop :=
  ∀ c, store' c = store c ∨ ∃ d p, store c = .resolvedTypeVariable (.typeVariableRef d) ∧
    store' c = .resolvedTypeVariable p ∧ ReflTransGen (Link store) (.typeVariableRef d) p

section Clearness

variable {into : Ty → Ty → Prop} {store store' : Store} {hidden : Set Cell} {t u type ety : Ty}
  {c v : Cell} {typevar : TypeVariable}

theorem Clear.here (clear : Clear into store hidden t) : Fair into store hidden t := clear t .refl

theorem Clear.follow (clear : Clear into store hidden t) (step : Follow Sees store t u) :
    Clear into store hidden u := fun x path => clear x (.head step path)

theorem Clear.reduces (clear : Clear into store hidden t) (step : Reduces store t u) :
    Clear into store hidden u := clear.follow step.follow

theorem Clear.reduction (clear : Clear into store hidden t)
    (path : ReflTransGen (Reduces store) t u) : Clear into store hidden u := by
  induction path with
  | refl => exact clear
  | tail _ step ih => exact ih.reduces step

theorem sees_follow (path : ReflTransGen Sees t u) : ReflTransGen (Follow Sees store) t u :=
  path.lift id fun _ _ => .into

theorem Clear.seen (clear : Clear into store hidden t) (reaches : Reaches into store t c)
    (free : bindable (store c) = true) (shown : c ∉ hidden) : Seen store t c := by
  induction reaches using ReflTransGen.head_induction_on with
  | refl => exact .refl
  | @head t u step rest ih =>
    cases step with
    | target mem => exact .head (.target mem) (ih (clear.follow (.target mem)))
    | into inner =>
      by_cases seen : ReflTransGen Sees t u
      · have path : ReflTransGen (Follow Sees store) t u := sees_follow seen
        exact path.trans (ih fun x later => clear x (path.trans later))
      · exact (shown (clear.here.dropped u inner seen c rest free)).elim

theorem headReduceType_ok {fuel : Nat} (clear : Clear into store hidden t)
    (result : headReduceType store fuel t = .ok u) :
    ReflTransGen (Reduces store) t u ∧ HeadNormal store u := by
  induction fuel generalizing t with
  | zero => cases result
  | succ fuel ih =>
    simp only [headReduceType, bind_eq_ok] at result
    obtain ⟨next, ran, result⟩ := result
    cases next with
    | none =>
      cases result
      exact ⟨.refl, reduceType_none ran⟩
    | some t' =>
      have step := reduceType_some clear.here.body ran
      obtain ⟨path, normal⟩ := ih (clear.reduces step) result
      exact ⟨.head step path, normal⟩

theorem not_reached (clear : Clear into store hidden type)
    (path : ReflTransGen (Reduces store) type ety) (free : bindable (store c) = true)
    (shown : c ∉ hidden) (unseen : ¬Seen store ety c) : ¬Reaches into store type c :=
  fun reaches => unseen (seen_of_reduces free path (clear.seen reaches free shown))

theorem Clear.same (targets : ∀ c, targets (store' c) = targets (store c))
    (free : ∀ c, bindable (store' c) = bindable (store c)) (clear : Clear into store hidden t) :
    Clear into store' hidden t := by
  have same {into : Ty → Ty → Prop} : Follow into store' = Follow into store := follow_same targets
  intro u path
  rw [same] at path
  have fair := clear u path
  constructor
  · exact fair.body
  · exact fair.fits
  · intro c is
    rw [free]
    exact fair.visible c is
  · intro x inner unseen c
    rw [free, Reaches, same]
    exact fair.dropped x inner unseen c

theorem Clear.update (free : bindable (store v) = true) (shown : v ∉ hidden)
    (types : ∀ t ∈ targets typevar, Clear into store hidden t) (clear : Clear into store hidden t) :
    Clear into (Function.update store v typevar) hidden t := by
  intro u path
  have clearU : Clear into store hidden u := by
    induction path with
    | refl => exact clear
    | @tail a b _ step ih =>
      by_cases here : a = .typeVariableRef v
      · subst here
        rw [follow_variable (fun _ => nofun), Function.update_self] at step
        exact types b step
      · exact ih.follow ((follow_update here).mp step)
  have fair := clearU.here
  have before {c : Cell} (other : c ≠ v)
      (free' : bindable (Function.update store v typevar c) = true) :
      bindable (store c) = true := by
    rwa [Function.update_of_ne other] at free'
  constructor
  · exact fair.body
  · exact fair.fits
  · intro c is free'
    by_cases here : c = v
    · rw [here]
      exact shown
    · exact fair.visible c is (before here free')
  · intro x inner unseen c reaches free'
    rcases reaches.of_update with old | toV
    · by_cases here : c = v
      · subst here
        exact fair.dropped x inner unseen c old free
      · exact fair.dropped x inner unseen c old (before here free')
    · exact (shown (fair.dropped x inner unseen v toV free)).elim

theorem Link.follow (step : Link store t u) : Follow into store t u := by
  cases step with
  | resolved known => exact .target (by simp [targets, known])

theorem Shortened.follow (short : Shortened store store') (step : Follow into store' t u) :
    TransGen (Follow into store) t u := by
  cases step with
  | into inner => exact .single (.into inner)
  | @target c _ mem =>
    rcases short c with same | ⟨d, p, was, now, path⟩
    · rw [same] at mem
      exact .single (.target mem)
    · rw [now] at mem
      cases List.mem_singleton.mp mem
      exact .head' (Link.resolved was).follow (path.lift id fun _ _ => Link.follow)

theorem Shortened.path (short : Shortened store store')
    (path : ReflTransGen (Follow into store') t u) : ReflTransGen (Follow into store) t u := by
  induction path with
  | refl => exact .refl
  | tail _ step ih => exact ih.trans (short.follow step).to_reflTransGen

theorem Shortened.cycle (short : Shortened store store')
    (path : TransGen (Follow into store') t u) : TransGen (Follow into store) t u := by
  induction path with
  | single step => exact short.follow step
  | tail _ step ih => exact ih.trans (short.follow step)

theorem Shortened.bindable (short : Shortened store store') (c : Cell) :
    bindable (store' c) = bindable (store c) := by
  rcases short c with same | ⟨d, p, was, now, _⟩
  · rw [same]
  · rw [was, now]
    rfl

theorem Shortened.clear (short : Shortened store store') (clear : Clear into store hidden t) :
    Clear into store' hidden t := by
  intro u path
  have fair := clear u (short.path path)
  constructor
  · exact fair.body
  · exact fair.fits
  · intro c is
    rw [short.bindable]
    exact fair.visible c is
  · intro x inner unseen c reaches
    rw [short.bindable]
    exact fair.dropped x inner unseen c (short.path reaches)

end Clearness

end Mythryl.UnifyTypes
