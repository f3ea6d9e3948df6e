import Mathlib.Data.Finset.Card
import Mathlib.Data.List.Nodup

/-! # Matchings and covers -/

namespace Matchings

variable {N A : Type} (source target : A → N)

def Apart (a b : A) : Prop :=
  source a ≠ source b ∧ source a ≠ target b ∧ target a ≠ source b ∧ target a ≠ target b

def Covers (C : N → Prop) (a : A) : Prop := C (source a) ∨ C (target a)

variable {source target}

open Classical in
theorem length_le_of_cover {M : Type} {as : List A} {C : N → Prop} {mark : N → M}
    {marks : Finset M} (apart : as.Pairwise (Apart source target))
    (covers : ∀ a ∈ as, Covers source target C a) (mem : ∀ n, C n → mark n ∈ marks)
    (inj : ∀ n n', C n → C n' → mark n = mark n' → n = n') : as.length ≤ marks.card := by
  let node (a : A) : N := if C (source a) then source a else target a
  have inCover (a : A) (member : a ∈ as) : C (node a) := by
    by_cases first : C (source a)
    · simp [node, first]
    · simpa [node, first] using (covers a member).resolve_left first
  have isEnd (a : A) : node a = source a ∨ node a = target a := by
    by_cases first : C (source a)
    · exact .inl (if_pos first)
    · exact .inr (if_neg first)
  have nodup : (as.map fun a => mark (node a)).Nodup := by
    rw [List.Nodup, List.pairwise_map]
    refine apart.imp_of_mem fun {a b} memA memB away same => ?_
    have shared := inj _ _ (inCover a memA) (inCover b memB) same
    obtain ⟨ss, st, ts, tt⟩ := away
    rcases isEnd a with a' | a'
    · rcases isEnd b with b' | b'
      · exact ss (a'.symm.trans (shared.trans b'))
      · exact st (a'.symm.trans (shared.trans b'))
    · rcases isEnd b with b' | b'
      · exact ts (a'.symm.trans (shared.trans b'))
      · exact tt (a'.symm.trans (shared.trans b'))
  have subset : (as.map fun a => mark (node a)).toFinset ⊆ marks := by
    intro m member
    obtain ⟨a, memA, rfl⟩ := List.mem_map.mp (List.mem_toFinset.mp member)
    exact mem _ (inCover a memA)
  calc as.length = (as.map fun a => mark (node a)).toFinset.card := by
        rw [List.toFinset_card_of_nodup nodup, List.length_map]
    _ ≤ marks.card := Finset.card_le_card subset

end Matchings
