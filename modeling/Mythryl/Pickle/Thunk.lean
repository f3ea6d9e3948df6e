import Mythryl.Pickle.RoundTrip

/-! # The sizes in front of thunks -/

namespace Mythryl.Pickler

variable {α κ : Type}

theorem wrapThunkLoop_finishes {body : Funtree α} (state : State α)
    (finishes : ∀ σ, body σ ≠ .error .unfinished) (fuel nxt ilen : Nat) (enough : 5 < fuel + ilen)
    (pos : 0 < fuel) : wrapThunkLoop body state fuel nxt ilen ≠ .error .unfinished := by
  induction fuel generalizing nxt ilen with
  | zero => omega
  | succ fuel ih =>
    rw [wrapThunkLoop]
    cases run : body { state with pickleBytesize := nxt } with
    | error e =>
      intro eq
      obtain rfl := Except.error.inj eq
      exact finishes _ run
    | ok result =>
      obtain ⟨kidoffsets, stringtree, state'⟩ := result
      have short := intToBytestring_length_le (totalStringBytes stringtree)
      simp only [ok_bind]
      by_cases longer : ilen < (intToBytestring (totalStringBytes stringtree)).length
      · rw [if_pos longer, plus]
        split
        case isTrue => exact ih _ _ (by omega) (by omega)
        case isFalse => rintro ⟨⟩
      · rw [if_neg longer]
        rintro ⟨⟩

theorem wrapThunk_finishes {body : Funtree α} (finishes : ∀ σ, body σ ≠ .error .unfinished)
    (state : State α) : wrapThunk body state ≠ .error .unfinished := by
  rw [wrapThunk, plus]
  split
  case isTrue => exact wrapThunkLoop_finishes state finishes 3 _ _ (by decide) (by decide)
  case isFalse => rintro ⟨⟩

namespace Layout

mutual

def thunks (start : Nat) : Layout → List (Nat × Nat × Layout)
  | node key kids => thunksAll (start + key.contents.length) kids
  | ref _ _ => []
  | dummy => []
  | thunk zeros body => (start, zeros, body) :: thunks (start + lead zeros body) body

def thunksAll (start : Nat) : List Layout → List (Nat × Nat × Layout)
  | [] => []
  | kid :: kids => thunks start kid ++ thunksAll (start + kid.size) kids

end

end Layout

end Mythryl.Pickler

namespace Mythryl.Unpickler
open Pickler

variable {α κ : Type} {S : List Nat} {T : Table} {L : Layout} {p zeros : Nat} {body : Layout}

/-- One of the thunks `ps` stands at `p`, its body written for the place where it begins. -/
def ThunkAt (S : List Nat) (T : Table) (L : Layout) (ps : List (Wire κ)) (p zeros : Nat)
    (body : Layout) : Prop :=
  At S L p (.thunk zeros body) ∧ ∃ b, .thunk b ∈ ps ∧ Encodes T b (p + Layout.lead zeros body) body

theorem ThunkAt.mono {ps ps' : List (Wire κ)} (h : ThunkAt S T L ps p zeros body) (sub : ps ⊆ ps') :
    ThunkAt S T L ps' p zeros body :=
  h.imp_right fun ⟨b, part, encodes⟩ => ⟨b, sub part, encodes⟩

mutual

theorem thunkAt {start : Nat} {l : Layout} (s : Wire κ) (encodes : Encodes T s start l)
    (h : At S L start l) (mem : (p, zeros, body) ∈ l.thunks start) :
    ThunkAt S T L (parts s) p zeros body := by
  cases s with
  | leaf tag c =>
    subst encodes
    cases mem
  | node tag c kids =>
    obtain ⟨codes, -, ⟨ls, rfl, encodes⟩ | ⟨target, rfl, -⟩⟩ := encodes
    · exact (thunkAt_all kids encodes h.kids mem).mono (List.subset_cons_self _ _)
    · cases mem
  | dummy =>
    subst encodes
    cases mem
  | thunk b =>
    obtain ⟨zeros, l', rfl, encodes⟩ := encodes
    cases mem with
    | head => exact ⟨h, b, mem_parts_self _, encodes⟩
    | tail _ mem => exact (thunkAt b encodes h.body mem).mono (List.subset_cons_self _ _)
  | share v tag c kids =>
    obtain ⟨codes, -, ⟨ls, rfl, encodes⟩ | ⟨target, rfl, -⟩⟩ := encodes
    · exact (thunkAt_all kids encodes h.kids mem).mono (List.subset_cons_self _ _)
    · cases mem

theorem thunkAt_all {start : Nat} {ls : List Layout} (kids : List (Wire κ))
    (encodes : EncodesAll T kids start ls) (h : AllAt S L start ls)
    (mem : (p, zeros, body) ∈ Layout.thunksAll start ls) :
    ThunkAt S T L (partsAll kids) p zeros body := by
  cases kids with
  | nil =>
    subst encodes
    cases mem
  | cons kid kids =>
    obtain ⟨l, ls', rfl, first, more⟩ := encodes
    cases List.mem_append.mp mem with
    | inl mem => exact (thunkAt kid first h.head mem).mono (List.subset_append_left _ _)
    | inr mem => exact (thunkAt_all kids more h.tail mem).mono (List.subset_append_right _ _)

end

/-- The bytes of a thunk at `p`, and what reading its size and skipping its body makes of them. -/
structure Skipped (P : Text) (T : Table) (s : Wire κ) (p zeros : Nat) (body : Layout) : Prop where
  bytes : ∃ front text back, P = front ++ (List.replicate zeros 0 ++
    intToBytestring body.size ++ text ++ back) ∧ front.length = p ∧ text.length = body.size
  encodes : ∃ b, .thunk b ∈ parts s ∧ Encodes T b (p + Layout.lead zeros body) body
  size : ∀ fuel, P.length < fuel → ∀ σ : ReaderState, getSize P fuel fuel (σ.move p) =
    .ok (body.size, σ.move (p + Layout.lead zeros body))
  skip : ∀ fuel, P.length < fuel → ∀ (t : Ty) (σ : ReaderState), readLazy P fuel t (σ.move p) =
    .ok (σ.memos.length, ReaderState.move
      { σ with memos := σ.memos ++ [⟨t, (p + Layout.lead zeros body : Nat), none⟩] }
      (p + (Layout.lead zeros body + body.size)))

theorem wrap_thunk_consistent (sharing : Sharing α κ) {w : Wire.Sharer κ} {s : Wire κ}
    (agrees : s.Agrees w) (full : .thunk .dummy ∉ parts s) {pickle : Text}
    (small : pickle.length < 2 ^ 30)
    (run : funtreeToPickle sharing.emptyMap (s.funtree sharing) = .ok pickle) :
    (∀ (body : Funtree α) state, (∀ σ, body σ ≠ .error .unfinished) →
      wrapThunk body state ≠ .error .unfinished) ∧ ∃ l T, Encodes T s 0 l ∧ pickle.length = l.size ∧
      ∀ p zeros body, (p, zeros, body) ∈ l.thunks 0 → Skipped pickle T s p zeros body := by
  refine ⟨fun body state finishes => wrapThunk_finishes finishes state, ?_⟩
  obtain ⟨l, T, S, out⟩ := LaidOut.of_pickle agrees s.within_univ run
  refine ⟨l, T, out.encodes, out.length_eq, ?_⟩
  intro p zeros body mem
  obtain ⟨placed, b, part, encodes⟩ := thunkAt s out.encodes .root mem
  have pos : 0 < body.size := size_pos_of_encodes encodes fun eq => full (eq ▸ part)
  have stands : Stands pickle p (List.replicate zeros 0 ++ intToBytestring body.size ++
      marked S (p + Layout.lead zeros body) body) := by
    rw [LaidOut.text out, List.append_assoc]
    exact placed.text
  have le := stands.length_le
  simp only [List.length_append, List.length_replicate, marked_length] at le
  refine ⟨?_, ⟨b, part, encodes⟩, ?_, ?_⟩
  · obtain ⟨front, back, eq, length⟩ := stands
    exact ⟨front, _, back, eq, length, marked_length _ _⟩
  · intro fuel enough σ
    exact getSize_eq pos (by omega) stands.left enough (by omega)
  · intro fuel enough t σ
    exact readLazy_skips pos small stands (marked_length _ _) enough t

def lazyLeaf : Wire Unit := .thunk (.leaf 7 ⟨[char 'a'], by decide⟩)

theorem wrap_thunk_consistent_leaf :
    ∃ l T, Encodes T lazyLeaf 0 l ∧ [0, 0, 1, char 'a'].length = l.size ∧
      ∀ p zeros body, (p, zeros, body) ∈ l.thunks 0 →
        Skipped [0, 0, 1, char 'a'] T lazyLeaf p zeros body := by
  have result : lazyLeaf.funtree mapSharing (startState mapSharing.emptyMap) =
      .ok ([3], .node (pad (.leaf [1]) 2) (.leaf [char 'a']), _) := rfl
  have run := funtreeToPickle_eq result rfl nofun
  have full : .thunk .dummy ∉ parts lazyLeaf := by
    intro mem
    cases mem with
    | tail _ mem => cases mem with
      | tail _ mem => cases mem
  have agrees : lazyLeaf.Agrees fun _ => (7, ⟨[char 'a'], char 'a', [], rfl, by decide⟩, []) := trivial
  exact (wrap_thunk_consistent mapSharing agrees full (by decide) run).2

end Mythryl.Unpickler
