import Mathlib.Data.List.Basic
import Mathlib.Tactic.Basic

/-!
# Queues whose cancelled items are removed lazily

A queue keeps the items taken from it in order on `front` and the items added to it in reverse order
on `back`.
-/

namespace LazyQueue

variable {α : Type}

structure Queue (α : Type) where
  front : List α
  back : List α

namespace Queue

def empty : Queue α := ⟨[], []⟩

def contents (q : Queue α) : List α := q.front ++ q.back.reverse

def pending (live : α → Bool) (q : Queue α) : List α := q.contents.filter live

def putOnBack (q : Queue α) (item : α) : Queue α := ⟨q.front, item :: q.back⟩

def takeFromFront (q : Queue α) : Option α × Queue α :=
  match q.front with
  | x :: rest => (some x, ⟨rest, q.back⟩)
  | [] => match q.back.reverse with
      | x :: rest => (some x, ⟨rest, []⟩)
      | [] => (none, q)

end Queue

def clean (live : α → Bool) : List α → List α
  | [] => []
  | x :: rest => if live x then x :: rest else clean live rest

def cleanRev (live : α → Bool) : List α → List α → List α
  | [], result => result
  | x :: rest, result => cleanRev live rest (if live x then x :: result else result)

def cleanAll (live : α → Bool) (l : List α) : List α := (cleanRev live l []).reverse

def cleanAndRemove (live : α → Bool) (q : Queue α) : Option α × Queue α :=
  match clean live q.front with
  | item :: rest => (some item, ⟨rest, q.back⟩)
  | [] => match cleanRev live q.back [] with
      | item :: rest => (some item, ⟨rest, []⟩)
      | [] => (none, ⟨q.front, []⟩)

def cleanAndCheck (live : α → Bool) (q : Queue α) : Bool × Queue α :=
  match clean live q.front with
  | item :: rest => (true, ⟨item :: rest, q.back⟩)
  | [] => match cleanRev live q.back [] with
      | item :: rest => (true, ⟨item :: rest, []⟩)
      | [] => (false, ⟨q.front, []⟩)

def cleanAndEnqueue (live : α → Bool) (q : Queue α) (item : α) : Queue α :=
  match cleanAll live q.front with
  | [] => ⟨cleanRev live q.back [item], []⟩
  | x :: rest => ⟨x :: rest, item :: cleanAll live q.back⟩

section Laws

variable {live : α → Bool} {q : Queue α} {item : α}

@[simp] theorem contents_empty : (Queue.empty : Queue α).contents = [] := rfl

@[simp] theorem pending_empty : (Queue.empty : Queue α).pending live = [] := rfl

@[simp] theorem contents_putOnBack : (q.putOnBack item).contents = q.contents ++ [item] := by
  simp [Queue.contents, Queue.putOnBack]

theorem pending_putOnBack (alive : live item = true) :
    (q.putOnBack item).pending live = q.pending live ++ [item] := by
  simp [Queue.pending, alive]

theorem mem_pending {x : α} : x ∈ q.pending live ↔ x ∈ q.contents ∧ live x = true := by
  simp [Queue.pending]

theorem clean_eq_dropWhile (l : List α) : clean live l = l.dropWhile (fun x => !live x) := by
  induction l with
  | nil => rfl
  | cons x rest ih => by_cases alive : live x <;> simp [clean, List.dropWhile, alive, ih]

theorem filter_clean (l : List α) : (clean live l).filter live = l.filter live := by
  induction l with
  | nil => rfl
  | cons x rest ih => by_cases alive : live x <;> simp [clean, alive, ih]

theorem clean_subset (l : List α) : clean live l ⊆ l := by
  rw [clean_eq_dropWhile]
  exact (List.dropWhile_sublist _).subset

variable {rest : List α} {first : α}

theorem clean_cons {l : List α} {x : α} (first : clean live l = x :: rest) :
    live x = true ∧ l.filter live = x :: rest.filter live := by
  have alive : live x = true := by
    have kept := List.head?_dropWhile_not (fun y => !live y) l
    rw [← clean_eq_dropWhile, first] at kept
    simpa using kept
  rw [← filter_clean, first]
  simp [alive]

theorem clean_nil {l : List α} (none : clean live l = []) : l.filter live = [] := by
  rw [← filter_clean, none]
  rfl

theorem cleanRev_eq (l result : List α) :
    cleanRev live l result = (l.filter live).reverse ++ result := by
  induction l generalizing result with
  | nil => rfl
  | cons x rest ih => by_cases alive : live x <;> simp [cleanRev, alive, ih]

@[simp] theorem cleanAll_eq (l : List α) : cleanAll live l = l.filter live := by
  simp [cleanAll, cleanRev_eq]

theorem pending_parts : q.pending live = q.front.filter live ++ (q.back.filter live).reverse := by
  simp [Queue.pending, Queue.contents, List.filter_reverse]

theorem cleanAndRemove_none (none : (cleanAndRemove live q).1 = none) : q.pending live = [] := by
  rw [pending_parts]
  unfold cleanAndRemove at none
  split at none
  · cases none
  · rename_i front
    split at none
    · cases none
    · rename_i back
      rw [cleanRev_eq] at back
      simp_all [clean_nil front]

theorem cleanAndRemove_some (some : (cleanAndRemove live q).1 = some item) :
    q.pending live = item :: (cleanAndRemove live q).2.pending live := by
  unfold cleanAndRemove at some ⊢
  split at some
  · rename_i first rest front
    cases some
    simp [pending_parts, (clean_cons front).2]
  · rename_i front
    split at some
    · rename_i first rest back
      cases some
      rw [cleanRev_eq, List.append_nil] at back
      have kept : rest.filter live = rest := by
        have all : (item :: rest).filter live = item :: rest := by
          rw [← back]
          simp [List.filter_reverse]
        have alive : live item = true := by
          by_contra dead
          have short := congrArg List.length all
          have bound := List.length_filter_le live rest
          simp [dead] at short
          omega
        simpa [alive] using all
      simp [pending_parts, clean_nil front, back, kept]
    · cases some

theorem pending_cleanAndRemove_none (none : (cleanAndRemove live q).1 = none) :
    (cleanAndRemove live q).2.pending live = [] := by
  have idle := cleanAndRemove_none none
  rw [pending_parts] at idle ⊢
  unfold cleanAndRemove at none ⊢
  split at none
  · cases none
  · split at none
    · cases none
    · simp_all

theorem cleanAndRemove_subset : (cleanAndRemove live q).2.contents ⊆ q.contents := by
  intro x member
  unfold cleanAndRemove at member
  split at member
  · rename_i first rest front
    simp only [Queue.contents, List.mem_append] at member ⊢
    refine member.imp_left fun found => @clean_subset _ live _ _ ?_
    simp [front, found]
  · split at member
    · rename_i first rest back
      rw [cleanRev_eq, List.append_nil] at back
      have found : x ∈ (q.back.filter live).reverse := by
        simp only [Queue.contents, List.reverse_nil, List.append_nil] at member
        simp [back, member]
      simp only [List.mem_reverse, List.mem_filter] at found
      simp [Queue.contents, found.1]
    · simp only [Queue.contents, List.reverse_nil, List.append_nil] at member
      simp [Queue.contents, member]

theorem cleanAndCheck_eq : (cleanAndCheck live q).1 = !(q.pending live).isEmpty := by
  rw [pending_parts]
  unfold cleanAndCheck
  split
  · rename_i front
    simp [(clean_cons front).2]
  · rename_i front
    split
    · rename_i back
      rw [cleanRev_eq, List.append_nil] at back
      simp [back]
    · rename_i back
      rw [cleanRev_eq, List.append_nil] at back
      simp [clean_nil front, back]

theorem pending_cleanAndCheck : (cleanAndCheck live q).2.pending live = q.pending live := by
  simp only [pending_parts]
  unfold cleanAndCheck
  split
  · rename_i front
    simp [(clean_cons front).2, (clean_cons front).1]
  · rename_i front
    split
    · rename_i back
      rw [cleanRev_eq, List.append_nil] at back
      have kept := congrArg (List.filter live) back
      simp [clean_nil front, ← kept]
    · rename_i back
      rw [cleanRev_eq, List.append_nil] at back
      simp [back]

theorem cleanAndCheck_front (ready : (cleanAndCheck live q).1 = true) :
    ∃ first rest, (cleanAndCheck live q).2.front = first :: rest ∧ live first = true := by
  unfold cleanAndCheck at ready ⊢
  split at ready
  · rename_i front
    exact ⟨_, _, rfl, (clean_cons front).1⟩
  · split at ready
    · rename_i first rest back
      rw [cleanRev_eq, List.append_nil] at back
      have found : first ∈ (q.back.filter live).reverse := by simp [back]
      simp only [List.mem_reverse, List.mem_filter] at found
      exact ⟨_, _, rfl, found.2⟩
    · cases ready

theorem cleanAndCheck_keeps_front (front : q.front = first :: rest)
    (alive : live first = true) : (cleanAndCheck live q).2 = q := by
  obtain ⟨_, back⟩ := q
  cases front
  simp [cleanAndCheck, clean, alive]

theorem cleanAndCheck_subset : (cleanAndCheck live q).2.contents ⊆ q.contents := by
  intro x member
  unfold cleanAndCheck at member
  split at member
  · rename_i first rest front
    simp only [Queue.contents, List.mem_append] at member ⊢
    exact member.imp_left fun found => clean_subset _ (front ▸ found)
  · split at member
    · rename_i first rest back
      rw [cleanRev_eq, List.append_nil] at back
      simp only [Queue.contents, List.reverse_nil, List.append_nil, ← back, List.mem_reverse,
        List.mem_filter] at member
      simp [Queue.contents, member.1]
    · simp only [Queue.contents, List.reverse_nil, List.append_nil] at member
      simp [Queue.contents, member]

theorem contents_cleanAndEnqueue :
    (cleanAndEnqueue live q item).contents = q.pending live ++ [item] := by
  rw [pending_parts]
  unfold cleanAndEnqueue
  split
  · rename_i front
    rw [cleanAll_eq] at front
    simp [Queue.contents, front, cleanRev_eq]
  · rename_i front
    rw [cleanAll_eq] at front
    simp [Queue.contents, front]

theorem pending_cleanAndEnqueue (alive : live item = true) :
    (cleanAndEnqueue live q item).pending live = q.pending live ++ [item] := by
  simp only [Queue.pending, contents_cleanAndEnqueue, List.filter_append, List.filter_filter,
    Bool.and_self]
  simp [alive]

theorem pending_of_fewer {live' : α → Bool}
    (fewer : ∀ x ∈ q.contents, live' x = true → live x = true) :
    q.pending live' = (q.pending live).filter live' := by
  simp only [Queue.pending, List.filter_filter]
  apply List.filter_congr
  intro x member
  cases alive : live' x with
  | false => simp
  | true => simp [fewer x member alive]

theorem takeFromFront_cons (front : q.front = first :: rest) :
    q.takeFromFront = (some first, ⟨rest, q.back⟩) := by
  simp [Queue.takeFromFront, front]

theorem pending_front (front : q.front = first :: rest) (alive : live first = true) :
    q.pending live = first :: (Queue.pending live ⟨rest, q.back⟩) := by
  simp [pending_parts, front, alive]

end Laws

end LazyQueue
