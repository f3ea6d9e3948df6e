import Mythryl.Exceptions
import Mythryl.RaisingState
import Mathlib.Data.Int.Order.Basic
import Mathlib.Logic.Function.Basic
import Mathlib.Order.Defs.LinearOrder

/-!
# Types, and the store of type variables

`types` and `type_junk`: a type variable is a ref cell, and a resolved one is followed.
-/

namespace Mythryl.UnifyTypes
open RaisingState

abbrev Stamp := Nat

abbrev Label := String

abbrev Cell := Nat

namespace EqType

inductive Data
  | yes | no | indeterminate | chunk | data | eqAbstract | undef
  deriving DecidableEq, Repr

end EqType

inductive LiteralKind
  | int | unt | float | char | string
  deriving DecidableEq, Repr

structure PlainTypRecord where
  stamp : Stamp
  arity : Nat
  eqtypeInfo : EqType.Data
  deriving DecidableEq, Repr

mutual

inductive Typ
  | plainTyp (record : PlainTypRecord)
  | definedTyp (arity : Nat) (body : Ty)
  | typByStamppath (stamppath : List Stamp)
  | recordTyp (labels : List Label)
  | recursiveType (n : Nat)
  | freeType (n : Nat)
  | erroneousTyp

inductive Ty
  | typeVariableRef (tv : Cell)
  | typeSchemeArg (n : Nat)
  | wildcardType
  | undefinedType
  | typconType (typ : Typ) (args : List Ty)
  | typeSchemeType (eqProperties : List Bool) (arity : Nat) (body : Ty)

end

inductive TypeVariable
  | userTypeVariable (name : String) (eq : Bool) (fnNesting : Int)
  | metaTypeVariable (eq : Bool) (fnNesting : Int)
  | incompleteRecordTypeVariable (knownFields : List (Label × Ty)) (eq : Bool) (fnNesting : Int)
  | resolvedTypeVariable (type : Ty)
  | overloadedTypeVariable (eq : Bool)
  | literalTypeVariable (kind : LiteralKind)
  | typeVariableMark (n : Int)

abbrev Store := Cell → TypeVariable

inductive UnifyFail
  | circularity | needEqualityType
  | typMismatch (typ1 typ2 : Typ)
  | typeMismatch (type1 type2 : Ty)
  | literalTypeMismatch (typevar : TypeVariable)
  | userTypeVariableMismatch (typevar : TypeVariable)
  | overloadedTypeVariableMismatch | recordFieldLabelsMismatch

/-- `UNIFY_TYPES`, `impossible`, `INDEX_OUT_OF_BOUNDS`, or a computation that has not come to an
end. -/
inductive Raised
  | unifyTypes (failure : UnifyFail)
  | impossible (text : String)
  | indexOutOfBounds | unfinished

abbrev Calling (A : Type) := Raising Raised Store A

def deref (tv : Cell) : Calling TypeVariable := do return (← get) tv

def assign (tv : Cell) (typevar : TypeVariable) : Calling Unit :=
  modify fun store => Function.update store tv typevar

def eqRecordLabels : List Label → List Label → Bool
  | [], [] => true
  | x :: xs, y :: ys => x == y && eqRecordLabels xs ys
  | _, _ => false

def typsAreEqual : Typ → Typ → Bool
  | .plainTyp g, .plainTyp g' => g.stamp == g'.stamp
  | .erroneousTyp, _ => true
  | _, .erroneousTyp => true
  | .typByStamppath ep, .typByStamppath ep' => ep == ep'
  | .recordTyp l1, .recordTyp l2 => eqRecordLabels l1 l2
  | _, _ => false

def prune : Nat → Ty → Calling Ty
  | 0, _ => throw .unfinished
  | fuel + 1, .typeVariableRef tv => do
      match ← deref tv with
      | .resolvedTypeVariable type => do
          let pruned ← prune fuel type
          assign tv (.resolvedTypeVariable pruned)
          return pruned
      | _ => return .typeVariableRef tv
  | _ + 1, type => return type

/-- `none` is the exception `SHARE`: the list is as it was. -/
def shareMap (f : Ty → Except Raised (Option Ty)) : List Ty → Except Raised (Option (List Ty))
  | [] => return none
  | x :: l => do
      match ← f x with
      | some x' => return some (x' :: (← shareMap f l).getD l)
      | none => return (← shareMap f l).map (x :: ·)

def substitute (store : Store) (args : List Ty) : Nat → Ty → Except Raised (Option Ty)
  | 0, _ => throw .unfinished
  | _ + 1, .typeSchemeArg n =>
      match args[n]? with
      | some arg => return some arg
      | none => throw (.impossible "type_junk: apply_type_scheme - not enough arguments")
  | fuel + 1, .typconType typ args' => do
      return (← shareMap (substitute store args fuel) args').map (.typconType typ)
  | fuel + 1, .typeVariableRef tv =>
      match store tv with
      | .resolvedTypeVariable type => substitute store args fuel type
      | _ => return none
  | _ + 1, _ => return none

def applyTypeScheme (store : Store) (fuel arity : Nat) (body : Ty) (args : List Ty) :
    Except Raised Ty := do
  if arity > 0 then return (← substitute store args fuel body).getD body
  else return body

/-- `none` is the exception `BAD_TYPE_REDUCTION`. -/
def reduceType (store : Store) (fuel : Nat) : Ty → Except Raised (Option Ty)
  | .typconType (.definedTyp arity body) args => some <$> applyTypeScheme store fuel arity body args
  | .typeSchemeType [] 0 body => return some body
  | .typeVariableRef tv =>
      match store tv with
      | .resolvedTypeVariable type => return some type
      | _ => return none
  | _ => return none

def headReduceType (store : Store) : Nat → Ty → Except Raised Ty
  | 0, _ => throw .unfinished
  | fuel + 1, type => do
      match ← reduceType store fuel type with
      | some type' => headReduceType store fuel type'
      | none => return type

def labelIsGreaterThan (a b : Label) : Except Raised Bool :=
  match a.toList.head?, b.toList.head? with
  | some a0, some b0 =>
      if a0.isDigit then
        if b0.isDigit then return a.length > b.length ∨ a.length = b.length ∧ a > b
        else return false
      else
        if b0.isDigit then return true
        else return a > b
  | _, _ => throw .indexOutOfBounds

/-!
# Unification of types

`unify_types`: two types are made equal by resolving type variables to types that carry what was
known of the variables.
-/

def bug {A : Type} (msg : String) : Calling A := throw (.impossible ("unify_types: " ++ msg))

def fails {A : Type} (failure : UnifyFail) : Calling A := throw (.unifyTypes failure)

def literalIsEqualityKind : LiteralKind → Bool
  | .int | .unt | .char | .string => true
  | .float => false

def equalityPropertyOfTyp : Typ → Calling EqType.Data
  | .plainTyp record =>
      match record.eqtypeInfo with
      | .eqAbstract => return .no
      | ep => return ep
  | .recordTyp _ => return .yes
  | .definedTyp .. => bug "equality_property_of_typ: DEFINED_TYP"
  | .erroneousTyp => bug "equality_property_of_typ: ERRONEOUS_TYP"
  | _ => bug "equality_property_of_typ: unexpected typ"

def fieldwise (just1 just2 : Ty → Calling Ty) (combine : Ty → Ty → Calling Ty) :
    List (Label × Ty) → List (Label × Ty) → Calling (List (Label × Ty))
  | [], fields2 => fields2.mapM fun (n, t) => do return (n, ← just2 t)
  | fields1, [] => fields1.mapM fun (n, t) => do return (n, ← just1 t)
  | (n1, t1) :: r1, (n2, t2) :: r2 => do
      if n1 = n2 then
        let t ← combine t1 t2
        return (n1, t) :: (← fieldwise just1 just2 combine r1 r2)
      else
        if ← labelIsGreaterThan n2 n1 then
          let t ← just1 t1
          return (n1, t) :: (← fieldwise just1 just2 combine r1 ((n2, t2) :: r2))
        else
          let t ← just2 t2
          return (n2, t) :: (← fieldwise just1 just2 combine ((n1, t1) :: r1) r2)
  termination_by fields1 fields2 => fields1.length + fields2.length

def adjustType' (givenTypevarRef : Cell) (givenFnNesting : Int) : Nat → Bool → Ty → Calling Unit
  | 0, _, _ => throw .unfinished
  | fuel + 1, thisEq, .typeVariableRef tv => do
      match ← deref tv with
      | .userTypeVariable name eq fnNesting =>
          if thisEq && !eq then fails .needEqualityType
          else if givenFnNesting < fnNesting then
            assign tv (.userTypeVariable name eq givenFnNesting)
      | .metaTypeVariable eq fnNesting =>
          if givenTypevarRef = tv then fails .circularity
          else assign tv (.metaTypeVariable (thisEq || eq) (min givenFnNesting fnNesting))
      | .incompleteRecordTypeVariable knownFields eq fnNesting =>
          if givenTypevarRef = tv then fails .circularity
          else do
            knownFields.forM fun (_, t) => adjustType' givenTypevarRef givenFnNesting fuel eq t
            assign tv (.incompleteRecordTypeVariable knownFields (thisEq || eq)
              (min givenFnNesting fnNesting))
      | .resolvedTypeVariable type => adjustType' givenTypevarRef givenFnNesting fuel thisEq type
      | .literalTypeVariable kind =>
          if thisEq && !literalIsEqualityKind kind then fails .needEqualityType
      | .overloadedTypeVariable eq' =>
          if givenTypevarRef = tv then fails .circularity
          else if thisEq && !eq' then assign tv (.overloadedTypeVariable thisEq)
      | .typeVariableMark _ => bug "unify: adjust_type: ty::TYPE_VARIABLE_MARK"
  | fuel + 1, thisEq, .typconType (.definedTyp arity body) args => do
      let type ← headReduceType (← get) fuel (.typconType (.definedTyp arity body) args)
      adjustType' givenTypevarRef givenFnNesting fuel thisEq type
  | fuel + 1, thisEq, .typconType typ args => do
      match ← equalityPropertyOfTyp typ with
      | .chunk => args.forM (adjustType' givenTypevarRef givenFnNesting fuel false)
      | .yes => args.forM (adjustType' givenTypevarRef givenFnNesting fuel thisEq)
      | _ =>
          if thisEq then fails .needEqualityType
          else args.forM (adjustType' givenTypevarRef givenFnNesting fuel false)
  | _ + 1, _, .wildcardType => return ()
  | _ + 1, _, .typeSchemeType .. => bug "adjust_type 1"
  | _ + 1, _, .typeSchemeArg _ => bug "adjust_type 2"
  | _ + 1, _, .undefinedType => bug "adjust_type 3"

def adjustType (fuel : Nat) (givenType : Ty) (givenTypevarRef : Cell) (givenFnNesting : Int)
    (givenEq : Bool) : Calling Unit :=
  adjustType' givenTypevarRef givenFnNesting fuel givenEq givenType

def sortVars (store : Store) (tv1 tv2 : Cell) : Cell × Cell :=
  match store tv1, store tv2 with
  | .literalTypeVariable _, _ => (tv1, tv2)
  | _, .literalTypeVariable _ => (tv2, tv1)
  | .userTypeVariable .., _ => (tv1, tv2)
  | _, .userTypeVariable .. => (tv2, tv1)
  | .overloadedTypeVariable _, _ => (tv1, tv2)
  | _, .overloadedTypeVariable _ => (tv2, tv1)
  | .incompleteRecordTypeVariable .., _ => (tv1, tv2)
  | _, .incompleteRecordTypeVariable .. => (tv2, tv1)
  | _, _ => (tv1, tv2)

def infinity : Int := 10000000

/-! The functions that call each other take `unify_types` as an argument. -/

section Unify

variable (isLiteralType : LiteralKind → Ty → Bool) (fuel : Nat) (unify : Ty → Ty → Calling Unit)

def mergeFields (extra1 extra2 : Bool) (fields1 fields2 : List (Label × Ty)) :
    Calling (List (Label × Ty)) :=
  let extra (allowed : Bool) (t : Ty) : Calling Ty :=
    if !allowed then fails .recordFieldLabelsMismatch else return t
  fieldwise (extra extra1) (extra extra2)
    (fun t1 t2 => do
      unify t1 t2
      return t1)
    fields1 fields2

def resolveTypeVariable (var : Cell) (type ety : Ty) : Calling Unit := do
  match ← deref var with
  | .metaTypeVariable eq fnNesting =>
      match ety with
      | .wildcardType => pure ()
      | _ => adjustType fuel ety var fnNesting eq
      assign var (.resolvedTypeVariable type)
  | .incompleteRecordTypeVariable knownFields eq fnNesting =>
      match ety with
      | .typconType (.recordTyp fieldNames) fieldTypes =>
          let recordFields := fieldNames.zip fieldTypes
          fieldTypes.forM fun t => adjustType fuel t var fnNesting eq
          let _ ← mergeFields unify false true knownFields recordFields
          assign var (.resolvedTypeVariable type)
      | .wildcardType => knownFields.forM fun (_, type) => unify .wildcardType type
      | _ => fails (.typeMismatch (.typeVariableRef var) ety)
  | .overloadedTypeVariable eq =>
      adjustType fuel ety var infinity eq
      assign var (.resolvedTypeVariable type)
  | .literalTypeVariable kind =>
      match ety with
      | .wildcardType => pure ()
      | _ =>
          if isLiteralType kind ety then assign var (.resolvedTypeVariable type)
          else fails (.literalTypeMismatch (.literalTypeVariable kind))
  | .userTypeVariable name eq fnNesting =>
      match ety with
      | .wildcardType => pure ()
      | _ => fails (.userTypeVariableMismatch (.userTypeVariable name eq fnNesting))
  | .resolvedTypeVariable _ => bug "resolve_type_variable: ty::RESOLVED_TYPE_VARIABLE"
  | .typeVariableMark _ => bug "resolve_type_variable: ty::TYPE_VARIABLE_MARK"

/-- The variables are in the order of `sort_vars`, and different. -/
def unifyTypeVariables' (tv1 tv2 : Cell) : Calling Unit := do
  let type1 ← deref tv1
  let type2 ← deref tv2
  let resolve2 : Calling Unit := assign tv2 (.resolvedTypeVariable (.typeVariableRef tv1))
  match type1 with
  | .metaTypeVariable eq1 fnNesting1 =>
      match type2 with
      | .metaTypeVariable eq2 fnNesting2 =>
          assign tv1 (.metaTypeVariable (eq1 || eq2) (min fnNesting1 fnNesting2))
          resolve2
      | _ => bug "unify_Type_variables 3"
  | .userTypeVariable name eq1 fnNesting1 =>
      match type2 with
      | .metaTypeVariable eq2 fnNesting2 =>
          if eq1 || !eq2 then
            if fnNesting2 < fnNesting1 then assign tv1 (.userTypeVariable name eq1 fnNesting2)
            resolve2
          else fails (.userTypeVariableMismatch type1)
      | _ => fails (.userTypeVariableMismatch type1)
  | .incompleteRecordTypeVariable knownFields1 eq1 fnNesting1 =>
      match type2 with
      | .metaTypeVariable eq2 fnNesting2 =>
          let fnNesting := min fnNesting1 fnNesting2
          let eq := eq1 || eq2
          knownFields1.forM fun (_, t) => adjustType fuel t tv2 fnNesting eq
          assign tv1 (.incompleteRecordTypeVariable knownFields1 eq fnNesting)
          resolve2
      | .incompleteRecordTypeVariable knownFields2 eq2 fnNesting2 =>
          let fnNesting := min fnNesting1 fnNesting2
          let eq := eq1 || eq2
          knownFields2.forM fun (_, t) => adjustType fuel t tv1 fnNesting eq
          knownFields1.forM fun (_, t) => adjustType fuel t tv2 fnNesting eq
          let knownFields ← mergeFields unify true true knownFields1 knownFields2
          assign tv1 (.incompleteRecordTypeVariable knownFields eq fnNesting)
          resolve2
      | _ => bug "unify_type_variables 2"
  | .literalTypeVariable kind =>
      match type2 with
      | .literalTypeVariable kind' =>
          if kind = kind' then resolve2 else fails (.literalTypeMismatch type1)
      | .metaTypeVariable e2 _ | .overloadedTypeVariable e2 =>
          if !e2 || literalIsEqualityKind kind then resolve2
          else fails (.literalTypeMismatch type1)
      | _ => fails (.literalTypeMismatch type1)
  | .overloadedTypeVariable eq1 =>
      match type2 with
      | .overloadedTypeVariable eq2 =>
          if eq1 || !eq2 then resolve2
          else assign tv1 (.resolvedTypeVariable (.typeVariableRef tv2))
      | .metaTypeVariable eq2 _ =>
          if eq1 || !eq2 then resolve2
          else do
            assign tv1 (.overloadedTypeVariable eq2)
            resolve2
      | _ => fails .overloadedTypeVariableMismatch
  | _ => bug "unify_type_variables 4"

def unifyTypeVariables (var1 var2 : Cell) : Calling Unit := do
  if ¬ var1 = var2 then
    let (tv1, tv2) := sortVars (← get) var1 var2
    unifyTypeVariables' fuel unify tv1 tv2

def unifyTypes' (type1 type2 : Ty) : Calling Unit := do
  let etype1 ← headReduceType (← get) fuel type1
  let etype2 ← headReduceType (← get) fuel type2
  match etype1, etype2 with
  | .typeVariableRef var1, .typeVariableRef var2 => unifyTypeVariables fuel unify var1 var2
  | .typeVariableRef var1, etype2 =>
      resolveTypeVariable isLiteralType fuel unify var1 type2 etype2
  | etype1, .typeVariableRef var2 =>
      resolveTypeVariable isLiteralType fuel unify var2 type1 etype1
  | .typconType typ1 args1, .typconType typ2 args2 =>
      if typsAreEqual typ1 typ2 = true then (args1.zip args2).forM fun (a, b) => unify a b
      else fails (.typMismatch typ1 typ2)
  | .wildcardType, .typconType _ args2 => args2.forM fun x => unify x .wildcardType
  | .typconType _ args1, .wildcardType => args1.forM fun x => unify x .wildcardType
  | .wildcardType, _ => return ()
  | _, .wildcardType => return ()
  | etype1, etype2 => fails (.typeMismatch etype1 etype2)

end Unify

def unifyTypes (isLiteralType : LiteralKind → Ty → Bool) : Nat → Ty → Ty → Calling Unit
  | 0, _, _ => throw .unfinished
  | fuel + 1, type1, type2 => do
      let type1 ← prune fuel type1
      let type2 ← prune fuel type2
      unifyTypes' isLiteralType fuel (unifyTypes isLiteralType fuel) type1 type2

end Mythryl.UnifyTypes
