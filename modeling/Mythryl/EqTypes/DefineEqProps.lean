import Mythryl.Unify.Types
import Mythryl.Settling

/-!
# Equality properties of datatypes

`define_eq_props` of `eq_types`.
-/

namespace Mythryl.EqTypes
open RaisingState UnifyTypes.EqType

inductive TypKind
  | datatype (index : Nat)
  | other

mutual

inductive Typ
  | plainTyp (eqtypeInfo : Nat) (kind : TypKind)
  | definedTyp (arity : Nat) (body : Ty)
  | typByStamppath (stamppath : List Nat)
  | recordTyp
  | recursiveType (i : Nat)
  | freeType (i : Nat)
  | erroneousTyp

/-- A reference to a resolved type variable is the type that it is resolved to. -/
inductive Ty
  | typeVariableRef
  | resolvedTypeVariable (type : Ty)
  | typeSchemeArg (n : Nat)
  | wildcardType
  | undefinedType
  | typconType (typ : Typ) (args : List Ty)
  | typeSchemeType

end

/-- `impossible`, `SUBSCRIPT`, or a computation that has not come to an end. -/
inductive Raised
  | impossible (text : String)
  | subscript | unfinished

structure State where
  visited : List Nat
  eqtypeInfo : Nat → Data

abbrev Checking (A : Type) := Raising Raised State A

structure Family where
  members : List (List (Option Ty))
  freeTyps : List Typ
  eqs : List Nat
  expandPath : List Nat → Typ

def bug {A : Type} (msg : String) : Checking A := throw (.impossible ("EqTypes: " ++ msg))

def voidType : Ty := .typconType (.definedTyp 0 (.typconType .recordTyp [])) []

mutual

/-- `none` is the exception `SHARE`: the type is as it was. -/
def substitute (args : List Ty) : Ty → Checking (Option Ty)
  | .typeSchemeArg n =>
      match args[n]? with
      | some arg => return some arg
      | none => throw (.impossible "type_junk: apply_type_scheme - not enough arguments")
  | .typconType typ args' => do return (← shareMap args args').map (.typconType typ)
  | .resolvedTypeVariable type => substitute args type
  | _ => return none

def shareMap (args : List Ty) : List Ty → Checking (Option (List Ty))
  | [] => return none
  | x :: l => do
      match ← substitute args x with
      | some x' => return some (x' :: (← shareMap args l).getD l)
      | none => return (← shareMap args l).map (x :: ·)

end

def applyTypeScheme (arity : Nat) (body : Ty) (args : List Ty) : Checking Ty := do
  if arity > 0 then return (← substitute args body).getD body
  else return body

section Checks

variable (family : Family)

def expandTyp : Typ → Typ
  | .typByStamppath stamppath => family.expandPath stamppath
  | typ => typ

def freed : Nat → Typ → Checking Typ
  | 0, _ => throw .unfinished
  | fuel + 1, typ =>
      match expandTyp family typ with
      | .freeType i =>
          match family.freeTyps[i]? with
          | some tc => freed fuel tc
          | none => bug "unexpected free_typs 343"
      | typ => return typ

def getEq (i : Nat) : Checking Data := do
  match family.eqs[i]? with
  | some cell => return (← get).eqtypeInfo cell
  | none => throw .subscript

def setEq (i : Nat) (eqp : Data) : Checking Unit := do
  match family.eqs[i]? with
  | some cell => modify fun st => { st with eqtypeInfo := Function.update st.eqtypeInfo cell eqp }
  | none => throw .subscript

structure Calls where
  eqty : Ty → Checking Data
  checkDomains : Nat → Checking Data

def eqtyc (calls : Calls) : Typ → Checking Data
  | .plainTyp eqtypeInfo kind => do
      match (← get).eqtypeInfo eqtypeInfo, kind with
      | .data, .datatype index => calls.checkDomains index
      | .undef, _ => return .indeterminate
      | eqp, _ => return eqp
  | .recursiveType i => calls.checkDomains i
  | .recordTyp => return .yes
  | .erroneousTyp => return .indeterminate
  | .freeType _ => bug "eqtyc - ty::FREE_TYPE"
  | .typByStamppath _ => bug "eqtyc - ty::TYP_BY_STAMPPATH"
  | .definedTyp _ _ => bug "eqtyc - ty::DEFINED_TYP"

def applied (args : Checking Data) : Data → Checking Data
  | .no => return .no
  | .eqAbstract => return .no
  | .chunk => return .yes
  | .yes => args
  | .data => do
      match ← args with
      | .yes => return .data
      | e => return e
  | .indeterminate => return .indeterminate
  | .undef => bug "defineEqTyp::eqty: ty::eq_type::UNDEF"

mutual

def eqty (fuel : Nat) (calls : Calls) : Ty → Checking Data
  | .resolvedTypeVariable type => eqty fuel calls type
  | .typconType typ args => do
      match ← freed family fuel typ with
      | .definedTyp arity body => do calls.eqty (← applyTypeScheme arity body args)
      | typ => do applied (eqtylist fuel calls args .yes) (← eqtyc calls typ)
  | _ => return .yes

def eqtylist (fuel : Nat) (calls : Calls) : List Ty → Data → Checking Data
  | [], eqp => return eqp
  | type :: rest, eqp => do
      match ← eqty fuel calls type with
      | .no => return .no
      | .eqAbstract => return .no
      | .yes => eqtylist fuel calls rest eqp
      | .indeterminate => eqtylist fuel calls rest .indeterminate
      | .data =>
          match eqp with
          | .indeterminate => eqtylist fuel calls rest .indeterminate
          | _ => eqtylist fuel calls rest .data
      | _ => bug "defineEqTyp::eqtylist"

end

/-- `check_domains` of a member that has not been visited. -/
def visitMember (fuel : Nat) (calls : Calls) (i : Nat) : Checking Data := do
  modify fun st => { st with visited := i :: st.visited }
  match family.members[i]? with
  | none => throw .subscript
  | some constructorList => do
      let domains := constructorList.map fun domain => domain.getD voidType
      let eqp ← eqtylist family fuel calls domains .yes
      setEq family i eqp
      return eqp

def checkDomains (fuel : Nat) (calls : Calls) (i : Nat) : Checking Data := do
  if i ∈ (← get).visited then getEq family i
  else visitMember family fuel calls i

def calls : Nat → Calls
  | 0 => ⟨fun _ => throw .unfinished, fun _ => throw .unfinished⟩
  | fuel + 1 => ⟨eqty family fuel (calls fuel), checkDomains family fuel (calls fuel)⟩

end Checks

structure Datatyp where
  eqtypeInfo : Nat
  index : Nat

section Datatyps

variable (family : Family)

def dataToYes : List Nat → Checking Unit
  | [] => return ()
  | i :: is => do
      match ← getEq family i with
      | .data => do
          setEq family i .yes
          dataToYes is
      | _ => dataToYes is

def indeterminateToData (index : Nat) : List Nat → Checking Unit
  | [] => return ()
  | i :: is => do
      if i > index then
        match ← getEq family i with
        | .indeterminate => do
            setEq family i .data
            indeterminateToData index is
        | _ => indeterminateToData index is
      else indeterminateToData index is

def settle (index : Nat) : Data → Checking Unit
  | .yes => do dataToYes family (← get).visited
  | .data => do dataToYes family (← get).visited
  | .no => do indeterminateToData family index (← get).visited
  | .indeterminate => return ()
  | _ => bug "defineEqTyp"

def assertSettled (typ : Datatyp) : Checking Unit := do
  match (← get).eqtypeInfo typ.eqtypeInfo with
  | .yes => return ()
  | .no => return ()
  | .indeterminate => return ()
  | .data => bug "checkTypeConstructor[=>ty::eq_type::DATA]"
  | _ => bug "checkTypeConstructor[=>other]"

def checkTyp (fuel : Nat) (typ : Datatyp) : Checking Unit := do
  match (← get).eqtypeInfo typ.eqtypeInfo with
  | .data => do
      settle family typ.index (← (calls family fuel).checkDomains typ.index)
      assertSettled typ
  | _ => return ()

def checkTyps (fuel : Nat) : List Datatyp → Checking Unit
  | [] => return ()
  | typ :: typs => do
      checkTyp family fuel typ
      checkTyps fuel typs

end Datatyps

def familyOf (members : List (List (Option Ty))) (freeTyps : List Typ)
    (expandPath : List Nat → Typ) (datatyps : List Datatyp) : Family :=
  ⟨members, freeTyps, datatyps.map Datatyp.eqtypeInfo, expandPath⟩

/-- The members and the free typs are those of the family of the first datatype. -/
def defineEqProps (fuel : Nat) (members : List (List (Option Ty))) (freeTyps : List Typ)
    (expandPath : List Nat → Typ) (datatyps : List Datatyp) : Checking Unit :=
  checkTyps (familyOf members freeTyps expandPath datatyps) fuel datatyps

/-! # Families of datatypes -/

inductive Head
  | member (i : Nat)
  | yes | no | chunk

section Definitions

variable (family : Family) (marks : Nat → Data)

def plainHead : Typ → Option Head
  | .plainTyp eqtypeInfo (.datatype index) =>
      if eqtypeInfo ∈ family.eqs then
        if family.eqs[index]? = some eqtypeInfo then some (.member index) else none
      else outsideHead (marks eqtypeInfo)
  | .plainTyp eqtypeInfo .other =>
      if eqtypeInfo ∈ family.eqs then none else outsideHead (marks eqtypeInfo)
  | .recursiveType i => if i < family.members.length then some (.member i) else none
  | .recordTyp => some .yes
  | _ => none
where
  outsideHead : Data → Option Head
    | .yes => some .yes
    | .no => some .no
    | .chunk => some .chunk
    | _ => none

def headOf (typ : Typ) : Option Head :=
  match expandTyp family typ with
  | .freeType i => family.freeTyps[i]?.bind fun tc => plainHead family marks (expandTyp family tc)
  | typ => plainHead family marks typ

mutual

def mentions : Ty → Option (List (Option Nat))
  | .resolvedTypeVariable type => mentions type
  | .typconType typ args =>
      match headOf family marks typ with
      | some (.member i) => (mentionsAll args).map (some i :: ·)
      | some .yes => mentionsAll args
      | some .no => some [none]
      | some .chunk => some []
      | none => none
  | _ => some []

def mentionsAll : List Ty → Option (List (Option Nat))
  | [] => some []
  | type :: types =>
      match mentions type, mentionsAll types with
      | some l, some l' => some (l ++ l')
      | _, _ => none

end

mutual

/-- The type admits equality when the members in `S` do, and no others. -/
def Admits (S : Nat → Prop) : Ty → Prop
  | .resolvedTypeVariable type => Admits S type
  | .typconType typ args =>
      match headOf family marks typ with
      | some (.member i) => S i ∧ AdmitsAll S args
      | some .yes => AdmitsAll S args
      | some .chunk => True
      | _ => False
  | _ => True

def AdmitsAll (S : Nat → Prop) : List Ty → Prop
  | [] => True
  | type :: types => Admits S type ∧ AdmitsAll S types

end

def Supports (S : Nat → Prop) : Prop :=
  ∀ i, S i → ∃ constructorList, family.members[i]? = some constructorList ∧
    ∀ type, some type ∈ constructorList → Admits family marks S type

def AdmitsEquality (i : Nat) : Prop := ∃ S, Supports family marks S ∧ S i

/-- What a constructor's domain mentions; there are no mentions in `void_type`. -/
def domainMentions : Option Ty → Option (List (Option Nat))
  | some type => mentions family marks type
  | none => some []

def memberMentions (i : Nat) : List (Option Nat) :=
  (family.members.getD i []).flatMap fun domain => (domainMentions family marks domain).getD []

/-- The datatypes of the family, each of them with `DATA`, whose domains mention members, records and
typs that are known to admit equality or not to. -/
structure Formed (datatyps : List Datatyp) : Prop where
  eqs : family.eqs = datatyps.map Datatyp.eqtypeInfo
  nodup : family.eqs.Nodup
  indices : datatyps.map Datatyp.index = List.range family.members.length
  data : ∀ cell ∈ family.eqs, marks cell = .data
  known : ∀ constructorList ∈ family.members, ∀ domain ∈ constructorList,
    (domainMentions family marks domain).isSome

end Definitions

section Facts

variable {family : Family} {marks : Nat → Data} {S : Nat → Prop} {datatyps : List Datatyp}
  {l : List (Option Nat)} {i j : Nat}

mutual

theorem admits_iff (type : Ty) {l : List (Option Nat)} (known : mentions family marks type = some l) :
    Admits family marks S type ↔ ∀ o ∈ l, ∃ i, o = some i ∧ S i := by
  cases type with
  | resolvedTypeVariable type =>
    exact admits_iff type known
  | typconType typ args =>
    rw [mentions] at known
    rw [Admits]
    split at known
    next i head =>
      obtain ⟨l', knownArgs, rfl⟩ := Option.map_eq_some_iff.mp known
      simp [head, admitsAll_iff args knownArgs]
    next head => simp [head, admitsAll_iff args known]
    next head =>
      cases known
      simp [head]
    next head =>
      cases known
      simp [head]
    next => cases known
  | _ =>
    rw [mentions] at known
    · cases known
      simp [Admits]
    all_goals simp

theorem admitsAll_iff (types : List Ty) {l : List (Option Nat)}
    (known : mentionsAll family marks types = some l) :
    AdmitsAll family marks S types ↔ ∀ o ∈ l, ∃ i, o = some i ∧ S i := by
  cases types with
  | nil =>
    cases known
    simp [AdmitsAll]
  | cons type types =>
    rw [mentionsAll] at known
    split at known
    next l₁ l₂ known₁ known₂ =>
      cases known
      rw [AdmitsAll, admits_iff type known₁, admitsAll_iff types known₂]
      simp only [List.mem_append, or_imp, forall_and]
    next => cases known

end

theorem Formed.length (formed : Formed family marks datatyps) :
    family.eqs.length = family.members.length := by
  have same := congrArg List.length formed.indices
  rw [List.length_map, List.length_range] at same
  rw [formed.eqs, List.length_map, same]

theorem Formed.plainHead_lt (formed : Formed family marks datatyps) {typ : Typ}
    (head : plainHead family marks typ = some (.member i)) : i < family.members.length := by
  unfold plainHead at head
  split at head
  next cell index =>
    split at head
    · split at head
      next found =>
        cases head
        rw [← formed.length]
        exact (List.getElem?_eq_some_iff.mp found).1
      next => cases head
    · unfold plainHead.outsideHead at head
      split at head <;> cases head
  next cell =>
    split at head
    · cases head
    · unfold plainHead.outsideHead at head
      split at head <;> cases head
  next index =>
    split at head
    next less =>
      cases head
      exact less
    next => cases head
  next => cases head
  next => cases head

theorem Formed.headOf_lt (formed : Formed family marks datatyps) {typ : Typ}
    (head : headOf family marks typ = some (.member i)) : i < family.members.length := by
  unfold headOf at head
  split at head
  next index _ =>
    obtain ⟨tc, _, isHead⟩ := Option.bind_eq_some_iff.mp head
    exact formed.plainHead_lt isHead
  next => exact formed.plainHead_lt head

mutual

theorem Formed.mentions_lt (formed : Formed family marks datatyps) (type : Ty)
    {l : List (Option Nat)} (known : mentions family marks type = some l) (mem : some i ∈ l) :
    i < family.members.length := by
  cases type with
  | resolvedTypeVariable type =>
    exact formed.mentions_lt type known mem
  | typconType typ args =>
    rw [mentions] at known
    split at known
    next j head =>
      obtain ⟨l', knownArgs, rfl⟩ := Option.map_eq_some_iff.mp known
      rcases List.mem_cons.mp mem with isMember | later
      · cases isMember
        exact formed.headOf_lt head
      · exact formed.mentionsAll_lt args knownArgs later
    next => exact formed.mentionsAll_lt args known mem
    next =>
      cases known
      cases List.mem_singleton.mp mem
    next =>
      cases known
      exact (List.not_mem_nil mem).elim
    next => cases known
  | _ =>
    rw [mentions] at known
    · cases known
      exact (List.not_mem_nil mem).elim
    all_goals simp

theorem Formed.mentionsAll_lt (formed : Formed family marks datatyps) (types : List Ty)
    {l : List (Option Nat)} (known : mentionsAll family marks types = some l) (mem : some i ∈ l) :
    i < family.members.length := by
  cases types with
  | nil =>
    cases known
    exact (List.not_mem_nil mem).elim
  | cons type types =>
    rw [mentionsAll] at known
    split at known
    next l₁ l₂ known₁ known₂ =>
      cases known
      rcases List.mem_append.mp mem with here | later
      · exact formed.mentions_lt type known₁ here
      · exact formed.mentionsAll_lt types known₂ later
    next => cases known

end

theorem mem_memberMentions {constructorList : List (Option Ty)} {o : Option Nat}
    (found : family.members[i]? = some constructorList) : o ∈ memberMentions family marks i ↔
      ∃ domain ∈ constructorList, o ∈ (domainMentions family marks domain).getD [] := by
  rw [memberMentions, List.getD_eq_getElem?_getD, found, Option.getD_some, List.mem_flatMap]

theorem Formed.memberMentions_lt (formed : Formed family marks datatyps)
    (mem : some j ∈ memberMentions family marks i) : j < family.members.length := by
  obtain ⟨domain, _, member⟩ := List.mem_flatMap.mp mem
  cases domain with
  | none => exact (List.not_mem_nil member).elim
  | some type =>
    cases known : mentions family marks type with
    | none =>
      rw [domainMentions, known] at member
      exact (List.not_mem_nil member).elim
    | some l =>
      rw [domainMentions, known] at member
      exact formed.mentions_lt type known member

theorem Formed.domain (formed : Formed family marks datatyps)
    {constructorList : List (Option Ty)} (found : family.members[i]? = some constructorList)
    {type : Ty} (mem : some type ∈ constructorList) :
    ∃ l, mentions family marks type = some l ∧ ∀ o ∈ l, o ∈ memberMentions family marks i := by
  obtain ⟨l, known⟩ := Option.isSome_iff_exists.mp
    (formed.known constructorList (List.mem_of_getElem? found) (some type) mem)
  rw [domainMentions] at known
  refine ⟨l, known, fun o member => (mem_memberMentions found).mpr ⟨some type, mem, ?_⟩⟩
  rw [domainMentions, known]
  exact member

theorem Formed.admitsEquality_iff (formed : Formed family marks datatyps) :
    AdmitsEquality family marks i ↔
      i < family.members.length ∧ ¬Settling.Spoiled (memberMentions family marks) i := by
  constructor
  · rintro ⟨S, supports, mem⟩
    have admitted (j : Nat) (memJ : S j) (o : Option Nat)
        (mention : o ∈ memberMentions family marks j) : ∃ k, o = some k ∧ S k := by
      obtain ⟨constructorList, found, admits⟩ := supports j memJ
      obtain ⟨domain, memD, member⟩ := (mem_memberMentions found).mp mention
      cases domain with
      | none => exact (List.not_mem_nil member).elim
      | some type =>
        obtain ⟨l, known, _⟩ := formed.domain found memD
        rw [domainMentions, known] at member
        exact (admits_iff type known).mp (admits type memD) o member
    constructor
    · obtain ⟨constructorList, found, _⟩ := supports i mem
      exact (List.getElem?_eq_some_iff.mp found).1
    · intro spoiled
      induction spoiled with
      | @here j isFailure =>
        obtain ⟨k, isSome, _⟩ := admitted j mem none isFailure
        cases isSome
      | @through j k mention _ ih =>
        obtain ⟨k', isSome, memK⟩ := admitted j mem (some k) mention
        cases isSome
        exact ih memK
  · intro sound
    refine ⟨fun j => j < family.members.length ∧
      ¬Settling.Spoiled (memberMentions family marks) j, ?_, sound⟩
    rintro j ⟨less, notSpoiled⟩
    refine ⟨_, List.getElem?_eq_getElem less, fun type mem => ?_⟩
    obtain ⟨l, known, among⟩ := formed.domain (List.getElem?_eq_getElem less) mem
    rw [admits_iff type known]
    intro o memO
    have mention := among o memO
    cases o with
    | none => exact (notSpoiled (.here mention)).elim
    | some k =>
      exact ⟨k, rfl, formed.memberMentions_lt mention, fun spoiled =>
        notSpoiled (.through mention spoiled)⟩

end Facts

end Mythryl.EqTypes
