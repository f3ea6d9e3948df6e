import Mathlib.Data.List.Basic

/-!
# Queues in two lists

`rw_queue`: items are put on the list `back` and taken from the list `front`, or the other way
round; where the list to take from is empty, the other one is reversed.
-/

namespace Mythryl

structure RwQueue (X : Type) where
  front : List X
  back : List X

namespace RwQueue

variable {X : Type}

inductive Raised
  | fail

def reverse : X → List X → List X → X × List X
  | x, [], rl => (x, rl)
  | x, y :: rest, rl => reverse y rest (x :: rl)

def reverseAndPrepend : List X → List X → List X
  | [], l => l
  | x :: rest, l => reverseAndPrepend rest (x :: l)

def putOnBackOfQueue (q : RwQueue X) (item : X) : RwQueue X := { q with back := item :: q.back }

def putOnFrontOfQueue (q : RwQueue X) (item : X) : RwQueue X := { q with front := item :: q.front }

def takeFromFrontOfQueueOrRaiseException (q : RwQueue X) : Except Raised X × RwQueue X :=
  match q.front, q.back with
  | x :: rest, _ => (.ok x, { q with front := rest })
  | [], x :: rest =>
      let (y, rr) := reverse x rest []
      (.ok y, { front := rr, back := [] })
  | [], [] => (.error .fail, q)

def takeFromFrontOfQueue (q : RwQueue X) : Option X × RwQueue X :=
  match q.front, q.back with
  | x :: rest, _ => (some x, { q with front := rest })
  | [], x :: rest =>
      let (y, rr) := reverse x rest []
      (some y, { front := rr, back := [] })
  | [], [] => (none, q)

def takeFromBackOfQueue (q : RwQueue X) : Option X × RwQueue X :=
  match q.back, q.front with
  | x :: rest, _ => (some x, { q with back := rest })
  | [], x :: rest =>
      let (y, rr) := reverse x rest []
      (some y, { back := rr, front := [] })
  | [], [] => (none, q)

def clearQueueToEmpty (_ : RwQueue X) : RwQueue X := { front := [], back := [] }

def toList (q : RwQueue X) : List X := q.front ++ q.back.reverse

section Find

variable (predicate : X → Bool)

def removeFromBack (q : RwQueue X) : List X → List X → Option X × RwQueue X
  | [], _ => (none, q)
  | x :: rest, l =>
      if predicate x then (some x, { q with back := reverseAndPrepend l rest })
      else removeFromBack q rest (x :: l)

def removeFromFront (q : RwQueue X) : List X → List X → Option X × RwQueue X
  | [], _ => removeFromBack predicate q q.back []
  | x :: rest, l =>
      if predicate x then (some x, { q with front := reverseAndPrepend l rest })
      else removeFromFront q rest (x :: l)

def findFirstMatchingItemAndRemoveFromQueue (q : RwQueue X) : Option X × RwQueue X :=
  removeFromFront predicate q q.front []

end Find

inductive Operation (X : Type)
  | putOnBackOfQueue (item : X)
  | putOnFrontOfQueue (item : X)
  | takeFromFrontOfQueue
  | takeFromFrontOfQueueOrRaiseException
  | takeFromBackOfQueue
  | clearQueueToEmpty
  | findFirstMatchingItemAndRemoveFromQueue (predicate : X → Bool)

def perform (q : RwQueue X) : Operation X → Except Raised (Option X) × RwQueue X
  | .putOnBackOfQueue item => (.ok none, putOnBackOfQueue q item)
  | .putOnFrontOfQueue item => (.ok none, putOnFrontOfQueue q item)
  | .takeFromFrontOfQueue => (takeFromFrontOfQueue q).map .ok id
  | .takeFromFrontOfQueueOrRaiseException =>
      (takeFromFrontOfQueueOrRaiseException q).map (Except.map some) id
  | .takeFromBackOfQueue => (takeFromBackOfQueue q).map .ok id
  | .clearQueueToEmpty => (.ok none, clearQueueToEmpty q)
  | .findFirstMatchingItemAndRemoveFromQueue predicate =>
      (findFirstMatchingItemAndRemoveFromQueue predicate q).map .ok id

def performOnList (l : List X) : Operation X → Except Raised (Option X) × List X
  | .putOnBackOfQueue item => (.ok none, l ++ [item])
  | .putOnFrontOfQueue item => (.ok none, item :: l)
  | .takeFromFrontOfQueue => (.ok l.head?, l.tail)
  | .takeFromFrontOfQueueOrRaiseException =>
      (if l = [] then .error .fail else .ok l.head?, l.tail)
  | .takeFromBackOfQueue => (.ok l.getLast?, l.dropLast)
  | .clearQueueToEmpty => (.ok none, [])
  | .findFirstMatchingItemAndRemoveFromQueue predicate => (.ok (l.find? predicate), l.eraseP predicate)

def performAll {S : Type} (perform : S → Operation X → Except Raised (Option X) × S) (s : S) :
    List (Operation X) → List (Except Raised (Option X)) × S
  | [] => ([], s)
  | op :: ops =>
      let (answers, s') := performAll perform (perform s op).2 ops
      ((perform s op).1 :: answers, s')

/-- An item of `front` matches, or no two of `back`. -/
def Operation.Meets (q : RwQueue X) : Operation X → Prop
  | .findFirstMatchingItemAndRemoveFromQueue predicate =>
      (∃ x ∈ q.front, predicate x) ∨ q.back.countP predicate ≤ 1
  | _ => True

def AllMeet : RwQueue X → List (Operation X) → Prop
  | _, [] => True
  | q, op :: ops => op.Meets q ∧ AllMeet (perform q op).2 ops

section Lists

variable {p : X → Bool} {l l' : List X} {x y : X}

theorem reverse_eq (x : X) (l rl : List X) :
    l.reverse ++ x :: rl = (reverse x l rl).1 :: (reverse x l rl).2 := by
  induction l generalizing x rl with
  | nil => rfl
  | cons y l ih => simpa [reverse] using ih y (x :: rl)

theorem reverseAndPrepend_eq (l l' : List X) : reverseAndPrepend l l' = l.reverse ++ l' := by
  induction l generalizing l' with
  | nil => rfl
  | cons x l ih => simp [reverseAndPrepend, ih]

theorem first_match (none : ∀ y ∈ l, ¬p y) (found : p x) (l' : List X) :
    (l ++ x :: l').find? p = some x ∧ (l ++ x :: l').eraseP p = l ++ l' := by
  rw [List.find?_append, List.find?_eq_none.mpr none, List.eraseP_append_right _ none]
  simp [found]

theorem no_match (others : ∀ y ∈ l, ¬p y) : l.find? p = none ∧ l.eraseP p = l :=
  ⟨List.find?_eq_none.mpr others, List.eraseP_of_forall_not others⟩

theorem removeFromBack_eq (q : RwQueue X) (l l' : List X) (whole : q.back = l'.reverse ++ l)
    (none : ∀ x ∈ l', ¬p x) : removeFromBack p q l l' =
      (q.back.find? p, { q with back := q.back.eraseP p }) := by
  induction l generalizing l' with
  | nil =>
    have all : ∀ x ∈ q.back, ¬p x := by simpa [whole] using none
    rw [removeFromBack, (no_match all).1, (no_match all).2]
  | cons x l ih =>
    rw [removeFromBack]
    split
    · next found =>
        have first := first_match (fun y mem => none y (List.mem_reverse.mp mem)) found l
        rw [whole, first.1, first.2, reverseAndPrepend_eq]
    · next other =>
        exact ih (x :: l') (by simp [whole]) (List.forall_mem_cons.mpr ⟨other, none⟩)

theorem removeFromFront_eq (q : RwQueue X) (l l' : List X) (whole : q.front = l'.reverse ++ l)
    (none : ∀ x ∈ l', ¬p x) : removeFromFront p q l l' =
      if ∀ x ∈ q.front, ¬p x then (q.back.find? p, { q with back := q.back.eraseP p })
      else (q.front.find? p, { q with front := q.front.eraseP p }) := by
  induction l generalizing l' with
  | nil =>
    rw [removeFromFront, if_pos (by simpa [whole] using none)]
    exact removeFromBack_eq q q.back [] rfl (by simp)
  | cons x l ih =>
    rw [removeFromFront]
    split
    · next found =>
        have first := first_match (fun y mem => none y (List.mem_reverse.mp mem)) found l
        rw [if_neg fun all => all x (by simp [whole]) found, whole, first.1, first.2,
          reverseAndPrepend_eq]
    · next other =>
        exact ih (x :: l') (by simp [whole]) (List.forall_mem_cons.mpr ⟨other, none⟩)

theorem either_end (single : l.countP p ≤ 1) :
    l.find? p = l.reverse.find? p ∧ (l.eraseP p).reverse = l.reverse.eraseP p := by
  by_cases none : ∀ x ∈ l, ¬p x
  · have none' : ∀ x ∈ l.reverse, ¬p x := fun x mem => none x (List.mem_reverse.mp mem)
    rw [(no_match none).1, (no_match none).2, (no_match none').1, (no_match none').2]
    exact ⟨rfl, rfl⟩
  · obtain ⟨x, mem, found⟩ : ∃ x ∈ l, p x := by simpa using none
    obtain ⟨x, newer, older, noneNewer, found, rfl, -⟩ := List.exists_of_eraseP mem found
    have zero : newer.countP p + older.countP p = 0 := by
      simp [found] at single
      omega
    have noneOlder : ∀ y ∈ older.reverse, ¬p y := fun y mem =>
      List.countP_eq_zero.mp (Nat.eq_zero_of_add_eq_zero_left zero) y (List.mem_reverse.mp mem)
    have fromBack := first_match noneNewer found older
    have fromFront := first_match noneOlder found newer.reverse
    simp [fromBack, fromFront]

end Lists

section Calls

variable {q : RwQueue X} {op : Operation X}

theorem takes_front (q : RwQueue X) : (takeFromFrontOfQueue q).1 = (toList q).head? ∧
    toList (takeFromFrontOfQueue q).2 = (toList q).tail := by
  obtain ⟨front, back⟩ := q
  cases front with
  | cons x rest => simp [takeFromFrontOfQueue, toList]
  | nil =>
    cases back with
    | nil => simp [takeFromFrontOfQueue, toList]
    | cons x rest => simp [takeFromFrontOfQueue, toList, reverse_eq x rest []]

theorem takeOrRaise_eq (q : RwQueue X) : takeFromFrontOfQueueOrRaiseException q =
    ((takeFromFrontOfQueue q).1.elim (.error .fail) .ok, (takeFromFrontOfQueue q).2) := by
  unfold takeFromFrontOfQueueOrRaiseException takeFromFrontOfQueue
  split <;> rfl

theorem takes_back (q : RwQueue X) : (takeFromBackOfQueue q).1 = (toList q).getLast? ∧
    toList (takeFromBackOfQueue q).2 = (toList q).dropLast := by
  obtain ⟨front, back⟩ := q
  cases back with
  | cons x rest => simp [takeFromBackOfQueue, toList, ← List.append_assoc]
  | nil =>
    cases front with
    | nil => simp [takeFromBackOfQueue, toList]
    | cons x rest =>
      have whole := congrArg List.reverse (reverse_eq x rest [])
      simp only [List.reverse_append, List.reverse_cons, List.reverse_nil, List.nil_append,
        List.reverse_reverse, List.singleton_append] at whole
      simp [takeFromBackOfQueue, toList, whole]

theorem finds_first {p : X → Bool} (meets : (∃ x ∈ q.front, p x) ∨ q.back.countP p ≤ 1) :
    (findFirstMatchingItemAndRemoveFromQueue p q).1 = (toList q).find? p ∧
      toList (findFirstMatchingItemAndRemoveFromQueue p q).2 = (toList q).eraseP p := by
  rw [findFirstMatchingItemAndRemoveFromQueue, removeFromFront_eq q q.front [] rfl (by simp), toList]
  by_cases some : ∃ x ∈ q.front, p x
  · obtain ⟨x, mem, found⟩ := some
    have isSome : (q.front.find? p).isSome := List.find?_isSome.mpr ⟨x, mem, found⟩
    rw [if_neg fun none => none x mem found, List.find?_append, List.eraseP_append_left found _ mem,
      Option.or_of_isSome isSome]
    exact ⟨rfl, rfl⟩
  · have none : ∀ x ∈ q.front, ¬p x := by simpa using some
    obtain ⟨same, left⟩ := either_end (meets.resolve_left some)
    rw [if_pos none, List.find?_append, (no_match none).1, List.eraseP_append_right _ none, ← left]
    exact ⟨same, rfl⟩

theorem perform_eq (meets : op.Meets q) : (perform q op).1 = (performOnList (toList q) op).1 ∧
    toList (perform q op).2 = (performOnList (toList q) op).2 := by
  cases op with
  | putOnBackOfQueue item | putOnFrontOfQueue item | clearQueueToEmpty =>
    simp [perform, performOnList, toList, putOnBackOfQueue, putOnFrontOfQueue, clearQueueToEmpty]
  | takeFromFrontOfQueue =>
    obtain ⟨answer, left⟩ := takes_front q
    simp [perform, performOnList, answer, left]
  | takeFromFrontOfQueueOrRaiseException =>
    obtain ⟨answer, left⟩ := takes_front q
    simp only [perform, takeOrRaise_eq, answer, Prod.map, id, left, performOnList, and_true]
    cases toList q <;> rfl
  | takeFromBackOfQueue =>
    obtain ⟨answer, left⟩ := takes_back q
    simp [perform, performOnList, answer, left]
  | findFirstMatchingItemAndRemoveFromQueue p =>
    obtain ⟨answer, left⟩ := finds_first meets
    simp [perform, performOnList, answer, left]

theorem performAll_eq (q : RwQueue X) (ops : List (Operation X)) (meet : AllMeet q ops) :
    (performAll perform q ops).1 = (performAll performOnList (toList q) ops).1 ∧
      toList (performAll perform q ops).2 = (performAll performOnList (toList q) ops).2 := by
  induction ops generalizing q with
  | nil => exact ⟨rfl, rfl⟩
  | cons op ops ih =>
    obtain ⟨answer, left⟩ := perform_eq meet.1
    obtain ⟨answers, rest⟩ := ih _ meet.2
    rw [left] at answers rest
    exact ⟨List.cons_eq_cons.mpr ⟨answer, answers⟩, rest⟩

theorem performAll_eq_two : (performAll perform (⟨[], []⟩ : RwQueue Nat) [.putOnBackOfQueue 1,
      .findFirstMatchingItemAndRemoveFromQueue (· == 1)]).1 =
    (performAll performOnList (toList ⟨[], []⟩) [.putOnBackOfQueue 1,
      .findFirstMatchingItemAndRemoveFromQueue (· == 1)]).1 :=
  (performAll_eq ⟨[], []⟩ [.putOnBackOfQueue 1, .findFirstMatchingItemAndRemoveFromQueue (· == 1)]
    ⟨trivial, .inr (by decide), trivial⟩).1

theorem newest_first : (performAll perform (⟨[], []⟩ : RwQueue Nat) [.putOnBackOfQueue 1,
      .putOnBackOfQueue 2, .findFirstMatchingItemAndRemoveFromQueue fun _ => true]).1 ≠
    (performAll performOnList [] [.putOnBackOfQueue 1, .putOnBackOfQueue 2,
      .findFirstMatchingItemAndRemoveFromQueue fun _ => true]).1 := by
  simp [performAll, perform, performOnList, putOnBackOfQueue, removeFromFront, removeFromBack,
    findFirstMatchingItemAndRemoveFromQueue]

end Calls

end RwQueue

end Mythryl
