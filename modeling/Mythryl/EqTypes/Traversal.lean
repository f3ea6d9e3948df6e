import Mythryl.EqTypes.DefineEqProps
import Mathlib.Data.List.Perm.Subperm

/-!
# The traversal of a family

Checking types is a search that goes through what they mention, and `NO` marks the members that it
settles as failed.
-/

namespace Mythryl.EqTypes
open RaisingState UnifyTypes.EqType Settling

section Definitions

variable (family : Family) (marks : Nat → Data)

structure Represents (st : State) (m : Marks Nat) : Prop where
  visited : ∀ i, i ∈ st.visited ↔ i ∈ m.visited
  nodup : st.visited.Nodup
  bound : ∀ i ∈ st.visited, i < family.members.length
  failed : ∀ i c, family.eqs[i]? = some c → (i ∈ m.failed ↔ st.eqtypeInfo c = .no)
  mark : ∀ c ∈ family.eqs,
    st.eqtypeInfo c = .data ∨ st.eqtypeInfo c = .yes ∨ st.eqtypeInfo c = .no
  fresh : ∀ i c, family.eqs[i]? = some c → i ∉ st.visited → st.eqtypeInfo c = .data
  outside : ∀ c ∉ family.eqs, st.eqtypeInfo c = marks c

inductive Tells : Data → Bool → Prop
  | no : Tells .no true
  | yes : Tells .yes false
  | data : Tells .data false

structure Checked (l : List (Option Nat)) (st : State) (m : Marks Nat) (b : Bool) (st' : State)
    (m' : Marks Nat) : Prop where
  walk : Walk (memberMentions family marks) l m b m'
  represents : Represents family marks st' m'
  kept : ∀ i c, family.eqs[i]? = some c → i ∈ st.visited → st'.eqtypeInfo c = st.eqtypeInfo c

def Checks (fuel : Nat) (l : List (Option Nat)) (check : Checking Data) : Prop :=
  ∀ st m, Represents family marks st m → family.members.length + 2 ≤ fuel + st.visited.length →
    ∃ eqp b st' m', outcome check st = (.ok eqp, st') ∧ Tells eqp b ∧
      Checked family marks l st m b st' m'

end Definitions

section Searches

variable {family : Family} {marks : Nat → Data} {datatyps : List Datatyp} {st st' st'' : State}
  {m m' m'' : Marks Nat} {l l' : List (Option Nat)} {b b' : Bool} {i c fuel : Nat} {eqp : Data}
  {check : Checking Data}

theorem Represents.length_le (represents : Represents family marks st m) :
    st.visited.length ≤ family.members.length := by
  have sub : st.visited ⊆ List.range family.members.length :=
    fun i mem => List.mem_range.mpr (represents.bound i mem)
  have le := (List.Nodup.subperm represents.nodup sub).length_le
  rwa [List.length_range] at le

theorem Checked.grown (checked : Checked family marks l st m b st' m')
    (represents : Represents family marks st m) : st.visited ⊆ st'.visited := by
  intro i mem
  rw [checked.represents.visited]
  exact checked.walk.keeps.visited ((represents.visited i).mp mem)

theorem Checked.length_le (checked : Checked family marks l st m b st' m')
    (represents : Represents family marks st m) : st.visited.length ≤ st'.visited.length :=
  (List.Nodup.subperm represents.nodup (checked.grown represents)).length_le

theorem Checked.append (first : Checked family marks l st m false st' m')
    (second : Checked family marks l' st' m' b st'' m'')
    (represents : Represents family marks st m) :
    Checked family marks (l ++ l') st m b st'' m'' where
  walk := first.walk.append rfl second.walk
  represents := second.represents
  kept := fun i c found mem =>
    (second.kept i c found (first.grown represents mem)).trans (first.kept i c found mem)

theorem Checked.nil (represents : Represents family marks st m) :
    Checked family marks [] st m false st m := ⟨.nil, represents, fun _ _ _ _ => rfl⟩

theorem checks_pure (tells : Tells eqp false) : Checks family marks fuel [] (pure eqp) :=
  fun st m represents _ => ⟨eqp, false, st, m, rfl, tells, .nil represents⟩

theorem Checks.bind {rest : Data → Checking Data} (first : Checks family marks fuel l check)
    (failed : rest .no = pure .no)
    (passed : ∀ eqp, Tells eqp false → Checks family marks fuel l' (rest eqp)) :
    Checks family marks fuel (l ++ l') (check >>= rest) := by
  intro st m represents enough
  obtain ⟨eqp, b, st', m', checks, tells, checked⟩ := first st m represents enough
  rw [outcome_bind_ok checks]
  cases b with
  | true =>
    cases tells
    rw [failed]
    exact ⟨.no, true, st', m', rfl, .no, checked.walk.stop rfl, checked.represents, checked.kept⟩
  | false =>
    have longer := checked.length_le represents
    obtain ⟨eqp', b', st'', m'', checks', tells', checked'⟩ :=
      passed eqp tells st' m' checked.represents (by omega)
    exact ⟨eqp', b', st'', m'', checks', tells', checked.append checked' represents⟩

theorem Checks.finish {rest : Data → Checking Data} (first : Checks family marks fuel l check)
    (failed : rest .no = pure .no)
    (passed : ∀ eqp, Tells eqp false → Checks family marks fuel [] (rest eqp)) :
    Checks family marks fuel l (check >>= rest) := by
  have checks := first.bind failed passed
  rwa [List.append_nil] at checks

theorem Represents.visited_checked (represents : Represents family marks st m)
    (found : family.eqs[i]? = some c) (mem : i ∈ st.visited) : ∃ b, Tells (st.eqtypeInfo c) b ∧
      Checked family marks [some i] st m b st m := by
  have isVisited := (represents.visited i).mp mem
  by_cases isNo : st.eqtypeInfo c = .no
  · rw [isNo]
    have isFailed := (represents.failed i c found).mpr isNo
    exact ⟨true, .no, .failed isVisited isFailed, represents, fun _ _ _ _ => rfl⟩
  · have notFailed := mt (represents.failed i c found).mp isNo
    refine ⟨false, ?_, .seen isVisited notFailed .nil, represents, fun _ _ _ _ => rfl⟩
    rcases represents.mark c (List.mem_of_getElem? found) with isData | isYes | isNo'
    · rw [isData]
      exact .data
    · rw [isYes]
      exact .yes
    · exact (isNo isNo').elim

theorem freed_plain {fuel : Nat} {typ : Typ} {head : Head}
    (isHead : plainHead family marks (expandTyp family typ) = some head) (st : State) :
    outcome (freed family (fuel + 1) typ) st = (.ok (expandTyp family typ), st) := by
  rw [freed]
  split
  next index isFree =>
    rw [isFree] at isHead
    cases isHead
  next => rfl

theorem freed_spec {fuel : Nat} {typ : Typ} {head : Head}
    (isHead : headOf family marks typ = some head) : ∃ typ', plainHead family marks typ' = some head ∧
      ∀ st, outcome (freed family (fuel + 2) typ) st = (.ok typ', st) := by
  unfold headOf at isHead
  split at isHead
  next index isFree =>
    obtain ⟨tc, found, isHead⟩ := Option.bind_eq_some_iff.mp isHead
    refine ⟨expandTyp family tc, isHead, fun st => ?_⟩
    rw [freed, isFree]
    dsimp only
    rw [found]
    exact freed_plain isHead st
  next => exact ⟨expandTyp family typ, isHead, freed_plain isHead⟩

theorem eqtyc_plain {calls : Calls} (kind : TypKind) (st : State)
    (settled : st.eqtypeInfo c ≠ .data) (defined : st.eqtypeInfo c ≠ .undef) :
    outcome (eqtyc calls (.plainTyp c kind)) st = (.ok (st.eqtypeInfo c), st) := by
  apply (outcome_bind_ok (outcome_get st)).trans
  generalize st.eqtypeInfo c = eqp at settled defined
  cases eqp with
  | data => exact (settled rfl).elim
  | undef => exact (defined rfl).elim
  | _ => rfl

theorem eqtyc_member {calls : Calls} {typ : Typ}
    (domains : Checks family marks fuel [some i] (calls.checkDomains i))
    (isHead : plainHead family marks typ = some (.member i)) :
    Checks family marks fuel [some i] (eqtyc calls typ) := by
  unfold plainHead at isHead
  split at isHead
  next c index =>
    split at isHead
    · split at isHead
      next mem found =>
        cases isHead
        intro st m represents enough
        by_cases isData : st.eqtypeInfo c = .data
        · have same : outcome (eqtyc calls (.plainTyp c (.datatype i))) st =
              outcome (calls.checkDomains i) st := by
            apply (outcome_bind_ok (outcome_get st)).trans
            rw [isData]
          rw [same]
          exact domains st m represents enough
        · have visited : i ∈ st.visited := by
            by_contra fresh
            exact isData (represents.fresh i c found fresh)
          have defined : st.eqtypeInfo c ≠ .undef := by
            rcases represents.mark c mem with isMark | isMark | isMark <;> simp [isMark]
          obtain ⟨b, tells, checked⟩ := represents.visited_checked found visited
          exact ⟨_, b, st, m, eqtyc_plain _ st isData defined, tells, checked⟩
      next => cases isHead
    · unfold plainHead.outsideHead at isHead
      split at isHead <;> cases isHead
  next c =>
    split at isHead
    · cases isHead
    · unfold plainHead.outsideHead at isHead
      split at isHead <;> cases isHead
  next index =>
    split at isHead
    next =>
      cases isHead
      exact domains
    next => cases isHead
  next => cases isHead
  next => cases isHead

def Head.property : Head → Data
  | .member _ => .data
  | .yes => .yes
  | .no => .no
  | .chunk => .chunk

theorem outsideHead_eq {eqp : Data} {head : Head}
    (isHead : plainHead.outsideHead eqp = some head) : eqp = head.property ∧ eqp ≠ .data ∧
      eqp ≠ .undef := by
  unfold plainHead.outsideHead at isHead
  split at isHead <;> cases isHead <;> simp [Head.property]

theorem eqtyc_outside {calls : Calls} {typ : Typ} {head : Head}
    (isHead : plainHead family marks typ = some head) (other : ∀ i, head ≠ .member i)
    (represents : Represents family marks st m) :
    outcome (eqtyc calls typ) st = (.ok head.property, st) := by
  have outside {c : Nat} {kind : TypKind} (notMember : c ∉ family.eqs)
      (isHead : plainHead.outsideHead (marks c) = some head) :
      outcome (eqtyc calls (.plainTyp c kind)) st = (.ok head.property, st) := by
    rw [← represents.outside c notMember] at isHead
    obtain ⟨same, settled, defined⟩ := outsideHead_eq isHead
    rw [eqtyc_plain kind st settled defined, same]
  unfold plainHead at isHead
  split at isHead
  next c index =>
    split at isHead
    · split at isHead
      next =>
        cases isHead
        exact (other index rfl).elim
      next => cases isHead
    next notMember => exact outside notMember isHead
  next c =>
    split at isHead
    · cases isHead
    next notMember => exact outside notMember isHead
  next index =>
    split at isHead
    next =>
      cases isHead
      exact (other index rfl).elim
    next => cases isHead
  next =>
    cases isHead
    rfl
  next => cases isHead

theorem eqtylist_cons {calls : Calls} {type : Ty} {types : List Ty}
    (first : Checks family marks fuel l (eqty family fuel calls type))
    (rest : ∀ eqp, Tells eqp false →
      Checks family marks fuel l' (eqtylist family fuel calls types eqp)) (tells : Tells eqp false) :
    Checks family marks fuel (l ++ l') (eqtylist family fuel calls (type :: types) eqp) := by
  rw [eqtylist]
  · refine first.bind rfl fun eqp' tells' => ?_
    cases tells' with
    | yes => exact rest eqp tells
    | data =>
      cases tells with
      | yes => exact rest .data .data
      | data => exact rest .data .data
  · rintro rfl
    cases tells

theorem applied_checks (args : Checks family marks fuel l check) (tells : Tells eqp false) :
    Checks family marks fuel l (applied check eqp) := by
  cases tells with
  | yes => exact args
  | data =>
    refine args.finish rfl fun eqp tells => ?_
    cases tells with
    | yes => exact checks_pure .data
    | data => exact checks_pure .data

theorem eqty_typcon {calls : Calls} {typ typ' : Typ} {head : Head} (args : List Ty)
    (isHead : plainHead family marks typ' = some head)
    (frees : outcome (freed family fuel typ) st = (.ok typ', st)) :
    outcome (eqty family fuel calls (.typconType typ args)) st =
      outcome (eqtyc calls typ' >>= applied (eqtylist family fuel calls args .yes)) st := by
  apply (outcome_bind_ok frees).trans
  cases typ' with
  | definedTyp arity body => cases isHead
  | _ => rfl

mutual

theorem eqty_checks (formed : Formed family marks datatyps) (domains : ∀ i < family.members.length,
      Checks family marks fuel [some i] ((calls family fuel).checkDomains i)) (type : Ty) {l : List (Option Nat)}
    (known : mentions family marks type = some l) :
    Checks family marks fuel l (eqty family fuel (calls family fuel) type) := by
  cases type with
  | resolvedTypeVariable type =>
    exact eqty_checks formed domains type known
  | typconType typ args =>
    rw [mentions] at known
    intro st m represents enough
    obtain ⟨fuel', isFuel⟩ : ∃ fuel', fuel = fuel' + 2 := by
      have le := represents.length_le
      exact ⟨fuel - 2, by omega⟩
    cases isHead : headOf family marks typ with
    | none =>
      rw [isHead] at known
      cases known
    | some head =>
      rw [isHead] at known
      obtain ⟨typ', isHead', frees⟩ := @freed_spec family marks fuel' typ head isHead
      rw [← isFuel] at frees
      rw [eqty_typcon args isHead' (frees st)]
      cases head with
      | member i =>
        obtain ⟨l', knownArgs, rfl⟩ := Option.map_eq_some_iff.mp known
        have member := eqtyc_member (domains i (formed.plainHead_lt isHead')) isHead'
        have checks := eqtylist_checks formed domains args knownArgs .yes
        refine member.bind ?_ (fun eqp tells => applied_checks checks tells) st m represents
          enough
        rfl
      | yes =>
        rw [outcome_bind_ok (eqtyc_outside isHead' (fun i => by simp) represents)]
        exact eqtylist_checks formed domains args known .yes st m represents enough
      | no =>
        cases known
        rw [outcome_bind_ok (eqtyc_outside isHead' (fun i => by simp) represents)]
        exact ⟨.no, true, st, m, rfl, .no, .failure, represents, fun _ _ _ _ => rfl⟩
      | chunk =>
        cases known
        rw [outcome_bind_ok (eqtyc_outside isHead' (fun i => by simp) represents)]
        exact checks_pure .yes st m represents enough
  | _ =>
    rw [mentions] at known
    · cases known
      rw [eqty]
      · exact checks_pure .yes
      all_goals simp
    all_goals simp

theorem eqtylist_checks (formed : Formed family marks datatyps)
    (domains : ∀ i < family.members.length,
      Checks family marks fuel [some i] ((calls family fuel).checkDomains i)) (types : List Ty) {l : List (Option Nat)}
    (known : mentionsAll family marks types = some l) {eqp : Data} (tells : Tells eqp false) :
    Checks family marks fuel l (eqtylist family fuel (calls family fuel) types eqp) := by
  cases types with
  | nil =>
    cases known
    exact checks_pure tells
  | cons type types =>
    rw [mentionsAll] at known
    split at known
    next l₁ l₂ known₁ known₂ =>
      cases known
      exact eqtylist_cons (eqty_checks formed domains type known₁)
        (fun eqp tells => eqtylist_checks formed domains types known₂ tells) tells
    next => cases known

end

theorem void_checks : Checks family marks fuel [] (eqty family fuel (calls family fuel) voidType) := by
  intro st m represents enough
  obtain ⟨fuel', rfl⟩ : ∃ fuel', fuel = fuel' + 2 := by
    have le := represents.length_le
    exact ⟨fuel - 2, by omega⟩
  exact ⟨.yes, false, st, m, rfl, .yes, .nil represents⟩

theorem domains_checks (formed : Formed family marks datatyps)
    (domains : ∀ i < family.members.length,
      Checks family marks fuel [some i] ((calls family fuel).checkDomains i))
    (constructorList : List (Option Ty))
    (known : ∀ domain ∈ constructorList, (domainMentions family marks domain).isSome)
    (tells : Tells eqp false) : Checks family marks fuel
      (constructorList.flatMap fun domain => (domainMentions family marks domain).getD [])
      (eqtylist family fuel (calls family fuel)
        (constructorList.map fun domain => domain.getD voidType) eqp) := by
  induction constructorList generalizing eqp with
  | nil =>
    rw [List.map_nil, eqtylist]
    exact checks_pure tells
  | cons domain constructorList ih =>
    obtain ⟨here, later⟩ := List.forall_mem_cons.mp known
    obtain ⟨l, isKnown⟩ := Option.isSome_iff_exists.mp here
    rw [List.flatMap_cons, List.map_cons, isKnown]
    refine eqtylist_cons ?_ (fun eqp tells => ih later tells) tells
    cases domain with
    | none =>
      cases isKnown
      exact void_checks
    | some type => exact eqty_checks formed domains type isKnown

theorem getEq_ok (found : family.eqs[i]? = some c) (st : State) :
    outcome (getEq family i) st = (.ok (st.eqtypeInfo c), st) := by
  rw [getEq, found]
  rfl

def State.mark (st : State) (c : Nat) (eqp : Data) : State :=
  { st with eqtypeInfo := Function.update st.eqtypeInfo c eqp }

theorem setEq_ok (found : family.eqs[i]? = some c) (eqp : Data) (st : State) :
    outcome (setEq family i eqp) st = (.ok (), st.mark c eqp) := by
  rw [setEq, found]
  rfl

theorem State.mark_self : (st.mark c eqp).eqtypeInfo c = eqp := Function.update_self ..

theorem State.mark_of_ne {c' : Nat} (other : c' ≠ c) :
    (st.mark c eqp).eqtypeInfo c' = st.eqtypeInfo c' := Function.update_of_ne other ..

theorem Formed.index_eq (formed : Formed family marks datatyps) {j : Nat}
    (found : family.eqs[i]? = some c) (found' : family.eqs[j]? = some c) : i = j :=
  (List.getElem?_inj (List.getElem?_eq_some_iff.mp found).1 formed.nodup).mp
    (found.trans found'.symm)

theorem Represents.visit (represents : Represents family marks st m)
    (less : i < family.members.length) (fresh : i ∉ st.visited) :
    Represents family marks { st with visited := i :: st.visited } (m.visit i) where
  visited := fun j => by
    rw [List.mem_cons, represents.visited]
    rfl
  nodup := List.nodup_cons.mpr ⟨fresh, represents.nodup⟩
  bound := List.forall_mem_cons.mpr ⟨less, represents.bound⟩
  __ := represents
  fresh := fun j c found notMem =>
    represents.fresh j c found fun mem => notMem (List.mem_cons_of_mem i mem)

theorem Represents.mark_member (formed : Formed family marks datatyps)
    (represents : Represents family marks st m) (found : family.eqs[i]? = some c)
    (mem : i ∈ st.visited) (isData : st.eqtypeInfo c = .data) (tells : Tells eqp b) :
    Represents family marks (st.mark c eqp) (if b then m.fail i else m) := by
  have notFailed : i ∉ m.failed := by
    rw [represents.failed i c found, isData]
    simp
  have other {j c' : Nat} (found' : family.eqs[j]? = some c') (notI : j ≠ i) : c' ≠ c := by
    rintro rfl
    exact notI (formed.index_eq found' found)
  constructor
  case visited =>
    intro j
    rw [apply_ite Marks.visited]
    exact (represents.visited j).trans (by simp [Marks.fail])
  case nodup => exact represents.nodup
  case bound => exact represents.bound
  case failed =>
    intro j c' found'
    by_cases isI : j = i
    · subst isI
      cases Option.some.inj (found.symm.trans found')
      rw [State.mark_self]
      cases tells with
      | no => simp [Marks.fail]
      | yes => simpa using notFailed
      | data => simpa using notFailed
    · rw [State.mark_of_ne (other found' isI), ← represents.failed j c' found']
      cases b with
      | true => exact or_iff_right isI
      | false => rfl
  case mark =>
    intro c' memC
    by_cases isC : c' = c
    · rw [isC, State.mark_self]
      cases tells <;> simp
    · rw [State.mark_of_ne isC]
      exact represents.mark c' memC
  case fresh =>
    intro j c' found' notMem
    have notI : j ≠ i := by
      rintro rfl
      exact notMem mem
    rw [State.mark_of_ne (other found' notI)]
    exact represents.fresh j c' found' notMem
  case outside =>
    intro c' notMem
    rw [State.mark_of_ne ?_]
    · exact represents.outside c' notMem
    · rintro rfl
      exact notMem (List.mem_of_getElem? found)

theorem visitMember_checks (formed : Formed family marks datatyps)
    (domains : ∀ i < family.members.length,
      Checks family marks fuel [some i] ((calls family fuel).checkDomains i))
    (less : i < family.members.length) (represents : Represents family marks st m)
    (enough : family.members.length + 2 ≤ fuel + 1 + st.visited.length) (fresh : i ∉ st.visited) :
    ∃ eqp b st' m', outcome (visitMember family fuel (calls family fuel) i) st = (.ok eqp, st') ∧
      Tells eqp b ∧ Checked family marks [some i] st m b st' m' := by
  let st₁ : State := { st with visited := i :: st.visited }
  have represents₁ : Represents family marks st₁ (m.visit i) := represents.visit less fresh
  have members := List.getElem?_eq_getElem less
  obtain ⟨c, found⟩ : ∃ c, family.eqs[i]? = some c :=
    ⟨_, List.getElem?_eq_getElem (formed.length ▸ less)⟩
  have checks := domains_checks formed domains _
    (formed.known _ (List.mem_of_getElem? members)) .yes
  obtain ⟨eqp, b, st₂, m₂, result, tells, checked⟩ :=
    checks st₁ _ represents₁ (by rw [List.length_cons]; omega)
  have isData : st₂.eqtypeInfo c = .data :=
    (checked.kept i c found List.mem_cons_self).trans (represents.fresh i c found fresh)
  have mem : i ∈ st₂.visited := checked.grown represents₁ List.mem_cons_self
  have walk : Walk (memberMentions family marks) (memberMentions family marks i) (m.visit i) b m₂ := by
    rw [memberMentions, List.getD_eq_getElem?_getD, members]
    exact checked.walk
  refine ⟨eqp, b, st₂.mark c eqp, if b then m₂.fail i else m₂, ?_, tells, ?_,
    checked.represents.mark_member formed found mem isData tells, fun j c' found' memJ => ?_⟩
  · rw [visitMember, outcome_bind_ok (outcome_modify _ st), members]
    apply (outcome_bind_ok result).trans
    apply (outcome_bind_ok (setEq_ok found eqp st₂)).trans
    rfl
  · have unseen : i ∉ m.visited := mt (represents.visited i).mpr fresh
    cases b with
    | true => exact .fails unseen walk
    | false => exact .passes unseen walk .nil
  · have notI : c' ≠ c := by
      rintro rfl
      rw [formed.index_eq found' found] at memJ
      exact fresh memJ
    rw [State.mark_of_ne notI]
    exact checked.kept j c' found' (List.mem_cons_of_mem i memJ)

theorem checkDomains_checks (formed : Formed family marks datatyps) (fuel i : Nat)
    (less : i < family.members.length) :
    Checks family marks fuel [some i] ((calls family fuel).checkDomains i) := by
  induction fuel generalizing i with
  | zero =>
    intro st m represents enough
    have le := represents.length_le
    omega
  | succ fuel ih =>
    intro st m represents enough
    obtain ⟨c, found⟩ : ∃ c, family.eqs[i]? = some c :=
      ⟨_, List.getElem?_eq_getElem (formed.length ▸ less)⟩
    have unfolded : outcome ((calls family (fuel + 1)).checkDomains i) st =
        outcome (if i ∈ st.visited then getEq family i
          else visitMember family fuel (calls family fuel) i) st :=
      outcome_bind_ok (outcome_get st)
    rw [unfolded]
    by_cases mem : i ∈ st.visited
    · obtain ⟨b, tells, checked⟩ := represents.visited_checked found mem
      rw [if_pos mem, getEq_ok found]
      exact ⟨_, b, st, m, rfl, tells, checked⟩
    · rw [if_neg mem]
      exact visitMember_checks formed ih less represents enough mem

end Searches

/-!
# The equality properties that are found

Each datatype is checked, and what its check leaves with `DATA` a later check marks `YES`.
-/

def Firm (st : State) (c : Nat) : Prop := st.eqtypeInfo c = .yes ∨ st.eqtypeInfo c = .no

def KeepsFirm (family : Family) (st st' : State) : Prop :=
  ∀ c ∈ family.eqs, Firm st c → st'.eqtypeInfo c = st.eqtypeInfo c

section Checks

variable {family : Family} {marks : Nat → Data} {datatyps : List Datatyp} {st st' : State}
  {m m' : Marks Nat} {b : Bool} {i c fuel : Nat} {eqp : Data} {is : List Nat}

structure Firmed (family : Family) (is : List Nat) (st st' : State) : Prop where
  visited : st'.visited = st.visited
  marks : ∀ i c, family.eqs[i]? = some c → st'.eqtypeInfo c =
    if i ∈ is ∧ st.eqtypeInfo c = .data then .yes else st.eqtypeInfo c
  outside : ∀ c ∉ family.eqs, st'.eqtypeInfo c = st.eqtypeInfo c

theorem dataToYes_spec (formed : Formed family marks datatyps)
    (bound : ∀ i ∈ is, i < family.members.length) (st : State) :
    ∃ st', outcome (dataToYes family is) st = (.ok (), st') ∧ Firmed family is st st' := by
  induction is generalizing st with
  | nil => exact ⟨st, rfl, rfl, by simp, fun _ _ => rfl⟩
  | cons i is ih =>
    obtain ⟨less, later⟩ := List.forall_mem_cons.mp bound
    obtain ⟨c, found⟩ : ∃ c, family.eqs[i]? = some c :=
      ⟨_, List.getElem?_eq_getElem (formed.length ▸ less)⟩
    by_cases isData : st.eqtypeInfo c = .data
    · obtain ⟨st', result, firmed⟩ := ih later (st.mark c .yes)
      refine ⟨st', ?_, firmed.visited, fun j c' found' => ?_, fun c' notMem => ?_⟩
      · rw [dataToYes, outcome_bind_ok (getEq_ok found st), isData]
        exact (outcome_bind_ok (setEq_ok found .yes st)).trans result
      · rw [firmed.marks j c' found']
        by_cases isI : j = i
        · subst isI
          cases Option.some.inj (found.symm.trans found')
          simp [State.mark_self, isData]
        · have other : c' ≠ c := by
            rintro rfl
            exact isI (formed.index_eq found' found)
          simp [State.mark_of_ne other, isI]
      · rw [firmed.outside c' notMem, State.mark_of_ne]
        rintro rfl
        exact notMem (List.mem_of_getElem? found)
    · obtain ⟨st', result, firmed⟩ := ih later st
      refine ⟨st', ?_, firmed.visited, fun j c' found' => ?_, firmed.outside⟩
      · rw [dataToYes, outcome_bind_ok (getEq_ok found st)]
        generalize st.eqtypeInfo c = eqp at isData
        cases eqp with
        | data => exact (isData rfl).elim
        | _ => exact result
      · rw [firmed.marks j c' found']
        by_cases isI : j = i
        · subst isI
          cases Option.some.inj (found.symm.trans found')
          simp [isData]
        · simp [isI]

theorem indeterminateToData_ok (represents : Represents family marks st m)
    (formed : Formed family marks datatyps) (bound : ∀ i ∈ is, i < family.members.length)
    (index : Nat) : outcome (indeterminateToData family index is) st = (.ok (), st) := by
  induction is with
  | nil => rfl
  | cons i is ih =>
    obtain ⟨less, later⟩ := List.forall_mem_cons.mp bound
    obtain ⟨c, found⟩ : ∃ c, family.eqs[i]? = some c :=
      ⟨_, List.getElem?_eq_getElem (formed.length ▸ less)⟩
    rw [indeterminateToData]
    split
    · rw [outcome_bind_ok (getEq_ok found st)]
      rcases represents.mark c (List.mem_of_getElem? found) with isMark | isMark | isMark
      · rw [isMark]
        exact ih later
      · rw [isMark]
        exact ih later
      · rw [isMark]
        exact ih later
    · exact ih later

theorem Represents.firmed (represents : Represents family marks st m)
    (firmed : Firmed family st.visited st st') : Represents family marks st' m where
  visited := fun i => by rw [firmed.visited, represents.visited]
  nodup := by
    rw [firmed.visited]
    exact represents.nodup
  bound := by
    rw [firmed.visited]
    exact represents.bound
  failed := fun i c found => by
    rw [represents.failed i c found, firmed.marks i c found]
    split
    next isData => simp [isData.2]
    next => rfl
  mark := fun c mem => by
    obtain ⟨i, found⟩ := List.mem_iff_getElem?.mp mem
    rw [firmed.marks i c found]
    split
    · exact .inr (.inl rfl)
    · exact represents.mark c mem
  fresh := fun i c found notMem => by
    rw [firmed.visited] at notMem
    rw [firmed.marks i c found, if_neg fun isData => notMem isData.1]
    exact represents.fresh i c found notMem
  outside := fun c notMem => by rw [firmed.outside c notMem, represents.outside c notMem]

theorem settle_spec (formed : Formed family marks datatyps)
    (represents : Represents family marks st m) (found : family.eqs[i]? = some c)
    (mem : i ∈ st.visited) (tells : Tells eqp b) (failed : i ∈ m.failed ↔ b = true) :
    ∃ st', outcome (settle family i eqp) st = (.ok (), st') ∧ Represents family marks st' m ∧
      Firm st' c ∧ KeepsFirm family st st' := by
  have memC := List.mem_of_getElem? found
  have yes (notFailed : i ∉ m.failed) : ∃ st', outcome (dataToYes family st.visited) st = (.ok (), st') ∧
      Represents family marks st' m ∧ Firm st' c ∧ KeepsFirm family st st' := by
    obtain ⟨st', result, firmed⟩ := dataToYes_spec formed represents.bound st
    refine ⟨st', result, represents.firmed firmed, .inl ?_, fun c' memC' firm => ?_⟩
    · rw [firmed.marks i c found]
      rcases represents.mark c memC with isMark | isMark | isMark
      · exact if_pos ⟨mem, isMark⟩
      · simp [isMark]
      · exact (notFailed ((represents.failed i c found).mpr isMark)).elim
    · obtain ⟨j, found'⟩ := List.mem_iff_getElem?.mp memC'
      rw [firmed.marks j c' found', if_neg]
      rintro ⟨_, isData⟩
      rcases firm with isMark | isMark
      · cases isData.symm.trans isMark
      · cases isData.symm.trans isMark
  cases tells with
  | no =>
    refine ⟨st, ?_, represents, .inr ((represents.failed i c found).mp (failed.mpr rfl)),
      fun _ _ _ => rfl⟩
    exact (outcome_bind_ok (outcome_get st)).trans
      (indeterminateToData_ok represents formed represents.bound i)
  | yes =>
    obtain ⟨st', result, post⟩ := yes (mt failed.mp Bool.false_ne_true)
    exact ⟨st', (outcome_bind_ok (outcome_get st)).trans result, post⟩
  | data =>
    obtain ⟨st', result, post⟩ := yes (mt failed.mp Bool.false_ne_true)
    exact ⟨st', (outcome_bind_ok (outcome_get st)).trans result, post⟩

theorem assertSettled_ok {typ : Datatyp} (firm : Firm st typ.eqtypeInfo) :
    outcome (assertSettled typ) st = (.ok (), st) := by
  rw [assertSettled, outcome_bind_ok (outcome_get st)]
  rcases firm with isMark | isMark
  · rw [isMark]
    rfl
  · rw [isMark]
    rfl

theorem Represents.firm_visited (represents : Represents family marks st m)
    (found : family.eqs[i]? = some c) (firm : Firm st c) : i ∈ st.visited := by
  by_contra fresh
  have isData := represents.fresh i c found fresh
  rcases firm with isMark | isMark
  · cases isData.symm.trans isMark
  · cases isData.symm.trans isMark

theorem KeepsFirm.firm (keeps : KeepsFirm family st st') (mem : c ∈ family.eqs) (firm : Firm st c) :
    Firm st' c := by
  unfold Firm
  rw [keeps c mem firm]
  exact firm

theorem checkTyp_spec (formed : Formed family marks datatyps)
    (represents : Represents family marks st m) (typ : Datatyp)
    (found : family.eqs[typ.index]? = some typ.eqtypeInfo)
    (enough : family.members.length + 2 ≤ fuel) : ∃ b st' m',
      outcome (checkTyp family fuel typ) st = (.ok (), st') ∧
      Walk (memberMentions family marks) [some typ.index] m b m' ∧
      Represents family marks st' m' ∧ Firm st' typ.eqtypeInfo ∧ KeepsFirm family st st' := by
  have start : typ.index ∈ m.failed → typ.index ∈ m.visited := by
    intro isFailed
    rw [← represents.visited]
    exact represents.firm_visited found (.inr ((represents.failed _ _ found).mp isFailed))
  by_cases isData : st.eqtypeInfo typ.eqtypeInfo = .data
  · have less : typ.index < family.members.length := by
      rw [← formed.length]
      exact (List.getElem?_eq_some_iff.mp found).1
    obtain ⟨eqp, b, st₁, m₁, result, tells, checked⟩ :=
      checkDomains_checks formed fuel typ.index less st m represents (by omega)
    have visited : typ.index ∈ st₁.visited :=
      (checked.represents.visited _).mpr checked.walk.root_visited
    obtain ⟨st₂, settles, represents₂, firm, keeps⟩ := settle_spec formed checked.represents found
      visited tells (checked.walk.root_failed start)
    refine ⟨b, st₂, m₁, ?_, checked.walk, represents₂, firm, fun c mem before => ?_⟩
    · rw [checkTyp, outcome_bind_ok (outcome_get st), isData]
      apply (outcome_bind_ok result).trans
      exact (outcome_bind_ok settles).trans (assertSettled_ok firm)
    · obtain ⟨j, found'⟩ := List.mem_iff_getElem?.mp mem
      have same := checked.kept j c found' (represents.firm_visited found' before)
      have firm₁ : Firm st₁ c := by
        unfold Firm
        rw [same]
        exact before
      exact (keeps c mem firm₁).trans same
  · have firm : Firm st typ.eqtypeInfo :=
      (represents.mark _ (List.mem_of_getElem? found)).resolve_left isData
    obtain ⟨b, _, checked⟩ :=
      represents.visited_checked found (represents.firm_visited found firm)
    refine ⟨b, st, m, ?_, checked.walk, represents, firm, fun _ _ _ => rfl⟩
    rw [checkTyp, outcome_bind_ok (outcome_get st)]
    rcases firm with isMark | isMark
    · rw [isMark]
      rfl
    · rw [isMark]
      rfl

theorem checkTyps_spec (formed : Formed family marks datatyps) (typs : List Datatyp)
    (found : ∀ typ ∈ typs, family.eqs[typ.index]? = some typ.eqtypeInfo)
    (enough : family.members.length + 2 ≤ fuel) (represents : Represents family marks st m) :
    ∃ st' m', outcome (checkTyps family fuel typs) st = (.ok (), st') ∧
      Runs (memberMentions family marks) (typs.map Datatyp.index) m m' ∧
      Represents family marks st' m' ∧ (∀ typ ∈ typs, Firm st' typ.eqtypeInfo) ∧
      KeepsFirm family st st' := by
  induction typs generalizing st m with
  | nil => exact ⟨st, m, rfl, .nil, represents, by simp, fun _ _ _ => rfl⟩
  | cons typ typs ih =>
    obtain ⟨here, later⟩ := List.forall_mem_cons.mp found
    obtain ⟨b, st₁, m₁, result₁, walk, represents₁, firm₁, keeps₁⟩ :=
      checkTyp_spec formed represents typ here enough
    obtain ⟨st₂, m₂, result₂, runs, represents₂, firm₂, keeps₂⟩ := ih later represents₁
    refine ⟨st₂, m₂, (outcome_bind_ok result₁).trans result₂, .cons walk runs, represents₂, ?_,
      fun c mem firm => ?_⟩
    · exact List.forall_mem_cons.mpr
        ⟨keeps₂.firm (List.mem_of_getElem? here) firm₁, firm₂⟩
    · exact (keeps₂ c mem (keeps₁.firm mem firm)).trans (keeps₁ c mem firm)

theorem Formed.represents (formed : Formed family marks datatyps) :
    Represents family marks ⟨[], marks⟩ ⟨∅, ∅⟩ where
  visited := by simp
  nodup := List.nodup_nil
  bound := by simp
  failed := fun i c found => by
    simp [formed.data c (List.mem_of_getElem? found)]
  mark := fun c mem => .inl (formed.data c mem)
  fresh := fun i c found _ => formed.data c (List.mem_of_getElem? found)
  outside := fun _ _ => rfl

theorem Formed.found (formed : Formed family marks datatyps) {typ : Datatyp} (mem : typ ∈ datatyps) :
    family.eqs[typ.index]? = some typ.eqtypeInfo := by
  obtain ⟨k, at_k⟩ := List.mem_iff_getElem?.mp mem
  have index : (datatyps.map Datatyp.index)[k]? = some typ.index := by
    rw [List.getElem?_map, at_k]
    rfl
  rw [formed.indices] at index
  obtain ⟨_, isIndex⟩ := List.getElem?_eq_some_iff.mp index
  rw [List.getElem_range] at isIndex
  rw [← isIndex, formed.eqs, List.getElem?_map, at_k]
  rfl

end Checks

section Result

variable {members : List (List (Option Ty))} {freeTyps : List Typ} {expandPath : List Nat → Typ}
  {datatyps : List Datatyp} {marks : Nat → Data} {fuel : Nat}

def Correct (family : Family) (marks : Nat → Data) (datatyps : List Datatyp) (st : State) : Prop :=
  ∀ typ ∈ datatyps, (AdmitsEquality family marks typ.index → st.eqtypeInfo typ.eqtypeInfo = .yes) ∧
    (¬AdmitsEquality family marks typ.index → st.eqtypeInfo typ.eqtypeInfo = .no)

theorem defineEqProps_correct_iff
    (formed : Formed (familyOf members freeTyps expandPath datatyps) marks datatyps)
    (enough : members.length + 2 ≤ fuel) : ∃ st,
      outcome (defineEqProps fuel members freeTyps expandPath datatyps) ⟨[], marks⟩ = (.ok (), st) ∧
      (Correct (familyOf members freeTyps expandPath datatyps) marks datatyps st ↔
        Orderly (memberMentions (familyOf members freeTyps expandPath datatyps) marks) ∅
          (List.range members.length)) := by
  obtain ⟨st, m, result, runs, represents, firm, _⟩ :=
    checkTyps_spec formed datatyps (fun _ => formed.found) enough formed.represents
  refine ⟨st, result, ?_⟩
  let family := familyOf members freeTyps expandPath datatyps
  have indices : datatyps.map Datatyp.index = List.range members.length := formed.indices
  rw [indices] at runs
  have closed : ∀ i ∈ List.range members.length, ∀ j, some j ∈ memberMentions family marks i →
      j ∈ List.range members.length :=
    fun _ _ _ mention => List.mem_range.mpr (formed.memberMentions_lt mention)
  rw [← runs.failed_iff closed]
  have failed {typ : Datatyp} (mem : typ ∈ datatyps) :
      typ.index ∈ m.failed ↔ st.eqtypeInfo typ.eqtypeInfo = .no :=
    represents.failed typ.index typ.eqtypeInfo (formed.found mem)
  have inRange {typ : Datatyp} (mem : typ ∈ datatyps) : typ.index ∈ List.range members.length := by
    have isIndex : typ.index ∈ datatyps.map Datatyp.index := List.mem_map_of_mem mem
    rw [indices] at isIndex
    exact isIndex
  have admits {typ : Datatyp} (mem : typ ∈ datatyps) : AdmitsEquality family marks typ.index ↔
      ¬Spoiled (memberMentions family marks) typ.index := by
    rw [formed.admitsEquality_iff]
    exact and_iff_right (List.mem_range.mp (inRange mem))
  constructor
  · intro correct i mem
    rw [← indices] at mem
    obtain ⟨typ, memT, rfl⟩ := List.mem_map.mp mem
    obtain ⟨whenIn, whenOut⟩ := correct typ memT
    rw [failed memT]
    by_cases spoiled : Spoiled (memberMentions family marks) typ.index
    · exact iff_of_true (whenOut fun isIn => (admits memT).mp isIn spoiled) spoiled
    · have isYes := whenIn ((admits memT).mpr spoiled)
      exact iff_of_false (by simp [isYes]) spoiled
  · intro settled typ mem
    have isNo := (failed mem).symm.trans (settled typ.index (inRange mem))
    constructor
    · intro isIn
      exact (firm typ mem).resolve_right fun marked => (admits mem).mp isIn (isNo.mp marked)
    · intro isOut
      rw [admits mem, not_not] at isOut
      exact isNo.mpr isOut

end Result

def intType : Ty := .typconType (.plainTyp 3 .other) []

def arrowTyp : Typ := .plainTyp 2 .other

def functions : List (List (Option Ty)) :=
  [[some (.typconType (.recursiveType 1) []), some (.typconType arrowTyp [intType, intType])],
    [some (.typconType (.recursiveType 0) [])]]

def functionTyps : List Datatyp := [⟨0, 0⟩, ⟨1, 1⟩]

def functionMarks (cell : Nat) : Data :=
  if cell = 2 then .no else if cell = 3 then .yes else .data

def functionFamily : Family := familyOf functions [] (fun _ => .erroneousTyp) functionTyps

theorem functions_formed : Formed functionFamily functionMarks functionTyps where
  eqs := rfl
  nodup := by decide
  indices := rfl
  data := by decide
  known := by decide

theorem functions_with_equality : Formed functionFamily functionMarks functionTyps ∧
    ¬AdmitsEquality functionFamily functionMarks 1 ∧ ∃ st,
      outcome (defineEqProps 4 functions [] (fun _ => .erroneousTyp) functionTyps)
        ⟨[], functionMarks⟩ = (.ok (), st) ∧ st.eqtypeInfo 1 = .yes := by
  refine ⟨functions_formed, fun admits => ?_, _, rfl, rfl⟩
  have mentionsA : memberMentions functionFamily functionMarks 0 = [some 1, none] := rfl
  have mentionsB : memberMentions functionFamily functionMarks 1 = [some 0] := rfl
  have spoiledA : Spoiled (memberMentions functionFamily functionMarks) 0 := by
    apply Spoiled.here
    simp [mentionsA]
  have spoiledB : Spoiled (memberMentions functionFamily functionMarks) 1 := by
    refine .through ?_ spoiledA
    simp [mentionsB]
  exact (functions_formed.admitsEquality_iff.mp admits).2 spoiledB

theorem functions_correct_iff : ∃ st,
    outcome (defineEqProps 4 functions [] (fun _ => .erroneousTyp) functionTyps)
      ⟨[], functionMarks⟩ = (.ok (), st) ∧
    (Correct functionFamily functionMarks functionTyps st ↔
      Orderly (memberMentions functionFamily functionMarks) ∅ (List.range functions.length)) :=
  defineEqProps_correct_iff functions_formed (by decide)

end Mythryl.EqTypes
