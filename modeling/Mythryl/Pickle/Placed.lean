import Mythryl.Pickle.Unpickler

/-! # Where things stand in a pickle -/

namespace Mythryl.Unpickler
open Pickler

variable {S : List Nat} {T : Table} {L : Layout}

def flagFirst (flag : Bool) : Text → Text
  | [] => []
  | c :: cs => (if flag then toUnt8 (c.val + 128) else c) :: cs

theorem flagFirst_length (flag : Bool) (s : Text) : (flagFirst flag s).length = s.length := by
  cases s <;> rfl

mutual

def marked (S : List Nat) (start : Nat) : Layout → Text
  | .node key kids => flagFirst (decide (start ∈ S)) key.contents ++
      markedAll S (start + key.contents.length) kids
  | .ref _ target => 255 :: intToBytestring target
  | .dummy => []
  | .thunk zeros body => List.replicate zeros 0 ++
      (intToBytestring body.size ++ marked S (start + Layout.lead zeros body) body)

def markedAll (S : List Nat) (start : Nat) : List Layout → Text
  | [] => []
  | kid :: kids => marked S start kid ++ markedAll S (start + kid.size) kids

end

mutual

theorem marked_length (start : Nat) (l : Layout) : (marked S start l).length = l.size := by
  cases l with
  | node key kids =>
    rw [marked, List.length_append, flagFirst_length, markedAll_length _ kids, Layout.size_node]
  | ref key target => rfl
  | dummy => rfl
  | thunk zeros body =>
    rw [marked, Layout.size_thunk, Layout.lead, List.length_append, List.length_append,
      List.length_replicate, marked_length _ body, Nat.add_assoc]

theorem markedAll_length (start : Nat) (ls : List Layout) :
    (markedAll S start ls).length = Layout.sizes ls := by
  cases ls with
  | nil => rfl
  | cons kid kids =>
    rw [markedAll, List.length_append, marked_length _ kid, markedAll_length _ kids,
      Layout.sizes_cons]

end

variable {o : Nat}

theorem lt_of_mem_sites {start : Nat} {n : Node} {l : Layout} (mem : (o, n) ∈ l.sites start)
    (ne : n.key.contents ≠ []) : o < start + l.size := by
  obtain ⟨front, back, text, rfl⟩ := l.site_text mem
  have pos : 0 < n.layout.text.length := by
    rw [Node.layout, Layout.text, List.length_append]
    exact Nat.add_pos_left (List.length_pos_iff.mpr ne) _
  rw [Layout.size, text]
  simp only [List.length_append]
  omega

def FlagsIn (S : List Nat) (start stop : Nat) (sites : List (Nat × Node)) : Prop :=
  ∀ o ∈ S, start ≤ o → o < stop → ∃ n, (o, n) ∈ sites ∧ n.key.contents ≠ []

mutual

theorem flagged_text {start : Nat} (l : Layout)
    (flags : FlagsIn S start (start + l.size) (l.sites start)) :
    flagged S start l.text = marked S start l := by
  cases l with
  | node key kids =>
    rw [Layout.size_node] at flags
    have kidFlags : FlagsIn S (start + key.contents.length)
        (start + key.contents.length + Layout.sizes kids)
        (Layout.sitesAll (start + key.contents.length) kids) := by
      intro o flag ge lt
      obtain ⟨n, mem, ne⟩ := flags o flag (by omega) (by omega)
      cases mem with
      | head =>
        have zero : key.contents.length = 0 := by omega
        exact absurd (List.length_eq_zero_iff.mp zero) ne
      | tail _ mem => exact ⟨n, mem, ne⟩
    rw [Layout.text, marked, flagged_append, flagged_texts kids kidFlags]
    congr 1
    cases contents : key.contents with
    | nil => rfl
    | cons c cs =>
      rw [contents, List.length_cons] at flags
      have rest : flagged S (start + 1) cs = cs := by
        apply flagged_of_not_mem
        intro o flag ge lt
        obtain ⟨n, mem, -⟩ := flags o flag (by omega) (by omega)
        cases mem with
        | head => omega
        | tail _ mem =>
          have := Layout.le_of_mem_sitesAll kids mem
          rw [contents, List.length_cons] at this
          omega
      simp only [flagged, rest, flagFirst, decide_eq_true_eq]
  | ref key target =>
    apply flagged_of_not_mem
    intro o flag ge lt
    obtain ⟨n, mem, -⟩ := flags o flag ge lt
    cases mem
  | dummy => rfl
  | thunk zeros body =>
    have lead : (List.replicate zeros (0 : Byte) ++ intToBytestring body.size).length =
        Layout.lead zeros body := by
      simp [Layout.lead]
    have bodyFlags : FlagsIn S (start + Layout.lead zeros body)
        (start + Layout.lead zeros body + body.size)
        (body.sites (start + Layout.lead zeros body)) := by
      intro o flag ge lt
      exact flags o flag (by omega) (by rw [Layout.size_thunk]; omega)
    have front : flagged S start (List.replicate zeros 0 ++ intToBytestring body.size) =
        List.replicate zeros 0 ++ intToBytestring body.size := by
      apply flagged_of_not_mem
      intro o flag ge lt
      obtain ⟨n, mem, -⟩ := flags o flag ge (by rw [Layout.size_thunk]; omega)
      have := Layout.le_of_mem_sites body mem
      omega
    rw [Layout.text, ← List.append_assoc, flagged_append]
    have eq := flagged_text body bodyFlags
    rw [← lead] at eq
    rw [marked, ← lead, ← eq, ← List.append_assoc]
    exact congrArg (· ++ _) front

theorem flagged_texts {start : Nat} (ls : List Layout)
    (flags : FlagsIn S start (start + Layout.sizes ls) (Layout.sitesAll start ls)) :
    flagged S start (Layout.texts ls) = markedAll S start ls := by
  cases ls with
  | nil => rfl
  | cons kid kids =>
    rw [Layout.sizes_cons] at flags
    have first : FlagsIn S start (start + kid.size) (kid.sites start) := by
      intro o flag ge lt
      obtain ⟨n, mem, ne⟩ := flags o flag ge (by omega)
      cases List.mem_append.mp mem with
      | inl mem => exact ⟨n, mem, ne⟩
      | inr mem => exact absurd (Layout.le_of_mem_sitesAll kids mem) (by omega)
    have more : FlagsIn S (start + kid.size) (start + kid.size + Layout.sizes kids)
        (Layout.sitesAll (start + kid.size) kids) := by
      intro o flag ge lt
      obtain ⟨n, mem, ne⟩ := flags o flag (by omega) (by omega)
      cases List.mem_append.mp mem with
      | inl mem => exact absurd (lt_of_mem_sites mem ne) (by omega)
      | inr mem => exact ⟨n, mem, ne⟩
    rw [Layout.texts, markedAll, flagged_append, flagged_text kid first, ← flagged_texts kids more]
    rfl

end

mutual

theorem sites_unique {start o : Nat} {n n' : Node} (l : Layout) (mem : (o, n) ∈ l.sites start)
    (mem' : (o, n') ∈ l.sites start) (ne : n.key.contents ≠ []) (ne' : n'.key.contents ≠ []) :
    n = n' := by
  cases l with
  | node key kids =>
    cases mem with
    | head =>
      cases mem' with
      | head => rfl
      | tail _ mem' =>
        have := Layout.le_of_mem_sitesAll kids mem'
        have zero : key.contents.length = 0 := by omega
        exact absurd (List.length_eq_zero_iff.mp zero) ne
    | tail _ mem =>
      cases mem' with
      | head =>
        have := Layout.le_of_mem_sitesAll kids mem
        have zero : key.contents.length = 0 := by omega
        exact absurd (List.length_eq_zero_iff.mp zero) ne'
      | tail _ mem' => exact sitesAll_unique kids mem mem' ne ne'
  | ref key target => cases mem
  | dummy => cases mem
  | thunk zeros body => exact sites_unique body mem mem' ne ne'

theorem sitesAll_unique {start o : Nat} {n n' : Node} (ls : List Layout)
    (mem : (o, n) ∈ Layout.sitesAll start ls) (mem' : (o, n') ∈ Layout.sitesAll start ls)
    (ne : n.key.contents ≠ []) (ne' : n'.key.contents ≠ []) : n = n' := by
  cases ls with
  | nil => cases mem
  | cons kid kids =>
    cases List.mem_append.mp mem with
    | inl mem =>
      cases List.mem_append.mp mem' with
      | inl mem' => exact sites_unique kid mem mem' ne ne'
      | inr mem' =>
        have := lt_of_mem_sites mem ne
        exact absurd (Layout.le_of_mem_sitesAll kids mem') (by omega)
    | inr mem =>
      cases List.mem_append.mp mem' with
      | inl mem' =>
        have := lt_of_mem_sites mem' ne'
        exact absurd (Layout.le_of_mem_sitesAll kids mem) (by omega)
      | inr mem' => exact sitesAll_unique kids mem mem' ne ne'

end

structure At (S : List Nat) (L : Layout) (o : Nat) (l : Layout) : Prop where
  sites : ∀ x ∈ l.sites o, x ∈ L.sites 0
  refs : ∀ r ∈ l.refs o, r ∈ L.refs 0
  text : ∃ front back, marked S 0 L = front ++ (marked S o l ++ back) ∧ front.length = o

structure AllAt (S : List Nat) (L : Layout) (o : Nat) (ls : List Layout) : Prop where
  sites : ∀ x ∈ Layout.sitesAll o ls, x ∈ L.sites 0
  refs : ∀ r ∈ Layout.refsAll o ls, r ∈ L.refs 0
  text : ∃ front back, marked S 0 L = front ++ (markedAll S o ls ++ back) ∧ front.length = o

theorem At.root : At S L 0 L where
  sites _ mem := mem
  refs _ mem := mem
  text := ⟨[], [], by simp, rfl⟩

theorem At.kids {key : Key} {kids : List Layout} (h : At S L o (.node key kids)) :
    AllAt S L (o + key.contents.length) kids where
  sites x mem := h.sites x (.tail _ mem)
  refs := h.refs
  text := by
    obtain ⟨front, back, eq, length⟩ := h.text
    refine ⟨front ++ flagFirst (decide (o ∈ S)) key.contents, back, ?_, ?_⟩
    · rw [eq, marked]
      simp
    · rw [List.length_append, flagFirst_length, length]

theorem AllAt.head {kid : Layout} {kids : List Layout} (h : AllAt S L o (kid :: kids)) :
    At S L o kid where
  sites x mem := h.sites x (List.mem_append_left _ mem)
  refs r mem := h.refs r (List.mem_append_left _ mem)
  text := by
    obtain ⟨front, back, eq, length⟩ := h.text
    refine ⟨front, markedAll S (o + kid.size) kids ++ back, ?_, length⟩
    rw [eq, markedAll, List.append_assoc]

theorem AllAt.tail {kid : Layout} {kids : List Layout} (h : AllAt S L o (kid :: kids)) :
    AllAt S L (o + kid.size) kids where
  sites x mem := h.sites x (List.mem_append_right _ mem)
  refs r mem := h.refs r (List.mem_append_right _ mem)
  text := by
    obtain ⟨front, back, eq, length⟩ := h.text
    refine ⟨front ++ marked S o kid, back, ?_, ?_⟩
    · rw [eq, markedAll]
      simp
    · rw [List.length_append, marked_length, length]

theorem At.body {zeros : Nat} {body : Layout} (h : At S L o (.thunk zeros body)) :
    At S L (o + Layout.lead zeros body) body where
  __ := h
  text := by
    obtain ⟨front, back, eq, length⟩ := h.text
    refine ⟨front ++ (List.replicate zeros 0 ++ intToBytestring body.size), back, ?_, ?_⟩
    · rw [eq, marked]
      simp
    · simp [length, Layout.lead]

mutual

theorem At.site {start o : Nat} {n : Node} (l : Layout) (h : At S L start l)
    (mem : (o, n) ∈ l.sites start) : At S L o n.layout := by
  cases l with
  | node key kids =>
    cases mem with
    | head => exact h
    | tail _ mem => exact AllAt.site kids h.kids mem
  | ref key target => cases mem
  | dummy => cases mem
  | thunk zeros body => exact At.site body h.body mem

theorem AllAt.site {start o : Nat} {n : Node} (ls : List Layout) (h : AllAt S L start ls)
    (mem : (o, n) ∈ Layout.sitesAll start ls) : At S L o n.layout := by
  cases ls with
  | nil => cases mem
  | cons kid kids =>
    cases List.mem_append.mp mem with
    | inl mem => exact At.site kid h.head mem
    | inr mem => exact AllAt.site kids h.tail mem

end

mutual

theorem encodes_site {start o : Nat} {l : Layout} {n : Node} (s : Wire Empty)
    (encodes : Encodes T s start l) (mem : (o, n) ∈ l.sites start) :
    ∃ a ∈ parts s, IsNode a ∧ Encodes T a o n.layout := by
  cases s with
  | leaf tag c =>
    subst encodes
    cases mem with
    | head => exact ⟨_, mem_parts_self _, trivial, rfl⟩
    | tail _ mem => cases mem
  | node tag c kids =>
    have whole := encodes
    obtain ⟨codes, -, ⟨ls, rfl, encodes⟩ | ⟨target, rfl, -⟩⟩ := encodes
    · cases mem with
      | head => exact ⟨_, mem_parts_self _, trivial, whole⟩
      | tail _ mem =>
        obtain ⟨a, part, node, h⟩ := encodesAll_site kids encodes mem
        exact ⟨a, .tail _ part, node, h⟩
    · cases mem
  | dummy =>
    subst encodes
    cases mem
  | thunk body =>
    obtain ⟨zeros, l', rfl, encodes⟩ := encodes
    obtain ⟨a, part, node, h⟩ := encodes_site body encodes mem
    exact ⟨a, .tail _ part, node, h⟩
  | share v tag c kids => exact v.elim

theorem encodesAll_site {start o : Nat} {ls : List Layout} {n : Node} (kids : List (Wire Empty))
    (encodes : EncodesAll T kids start ls) (mem : (o, n) ∈ Layout.sitesAll start ls) :
    ∃ a ∈ partsAll kids, IsNode a ∧ Encodes T a o n.layout := by
  cases kids with
  | nil =>
    subst encodes
    cases mem
  | cons kid kids =>
    obtain ⟨l, ls', rfl, first, more⟩ := encodes
    cases List.mem_append.mp mem with
    | inl mem =>
      obtain ⟨a, part, h⟩ := encodes_site kid first mem
      exact ⟨a, List.mem_append_left _ part, h⟩
    | inr mem =>
      obtain ⟨a, part, h⟩ := encodesAll_site kids more mem
      exact ⟨a, List.mem_append_right _ part, h⟩

end

theorem codedAll_of_encodes {a : Wire Empty} (node : IsNode a) {n : Node}
    (encodes : Encodes T a o n.layout) (found : T o = some n) : CodedAll T a.content [o] := by
  cases a with
  | leaf tag c =>
    rw [Encodes, Node.layout, Layout.node.injEq] at encodes
    exact coded_leaf found encodes.1
  | node tag c kids =>
    obtain ⟨codes, coded, ⟨ls, eq, -⟩ | ⟨target, eq, -⟩⟩ := encodes
    · rw [Node.layout, Layout.node.injEq] at eq
      refine ⟨o, [], rfl, ⟨n, found, ?_, ?_, ?_⟩, rfl⟩
      · rw [eq.1]
      · rw [eq.1]
      · rw [eq.1]; exact coded
    · cases eq
  | dummy => cases node
  | thunk body => cases node
  | share v tag c kids => exact v.elim

/-! # Reading bytes -/

open Numeral

variable {P x y text : Text} {p fuel : Nat} {σ : ReaderState} {V W : Type}

def ReaderState.move (σ : ReaderState) (p : Nat) : ReaderState := { σ with position := p }

@[simp] theorem move_position (σ : ReaderState) (p : Nat) : (σ.move p).position = p := rfl

theorem move_self (h : σ.position = p) : σ.move p = σ := by
  rw [ReaderState.move, ← h]

def Stands (P : Text) (p : Nat) (x : Text) : Prop :=
  ∃ front back, P = front ++ (x ++ back) ∧ front.length = p

theorem Stands.left (h : Stands P p (x ++ y)) : Stands P p x := by
  obtain ⟨front, back, eq, length⟩ := h
  exact ⟨front, y ++ back, by rw [eq, List.append_assoc], length⟩

theorem Stands.right (h : Stands P p (x ++ y)) : Stands P (p + x.length) y := by
  obtain ⟨front, back, eq, length⟩ := h
  refine ⟨front ++ x, back, ?_, by rw [List.length_append, length]⟩
  rw [eq]
  simp

theorem Stands.tail {c : Byte} (h : Stands P p (c :: x)) : Stands P (p + 1) x :=
  Stands.right (x := [c]) h

theorem Stands.length_le (h : Stands P p x) : p + x.length ≤ P.length := by
  obtain ⟨front, back, eq, length⟩ := h
  rw [eq, List.length_append, List.length_append, length]
  omega

theorem stands_self (x : Text) : Stands x 0 x := ⟨[], [], by simp, rfl⟩

variable {v : V} {n : Nat} {X κ : Type} {q : X → Wire κ}

theorem bind_ok {r : PickleReader V} {f : V → PickleReader W} {σ' : ReaderState}
    (h : r σ = .ok (v, σ')) : (r >>= f) σ = f v σ' := by
  show (r σ >>= fun p => f p.1 p.2) = _
  rw [h]
  rfl

theorem getchar_eq {c : Byte} (h : Stands P p (c :: x)) :
    getchar P (σ.move p) = .ok (c, σ.move (p + 1)) := by
  obtain ⟨front, back, eq, length⟩ := h
  have found : P[p]? = some c := by
    rw [eq, List.getElem?_append_right (by omega), length, Nat.sub_self]
    rfl
  have nonneg : (0 : Int) ≤ (σ.move p).position := Int.natCast_nonneg p
  rw [getchar, if_pos nonneg, move_position, Int.toNat_natCast, found]
  rfl

theorem andb_pow {n m : Nat} (i : Nat) (eq : m = 2 ^ i) (lt : n < 2 * m) :
    u32andb n m = if n < m then 0 else m := by
  subst eq
  rw [u32andb, Nat.and_two_pow, Nat.testBit_eq_decide_div_mod_eq]
  split_ifs with low
  · simp [Nat.div_eq_of_lt low]
  · simp [Nat.div_eq_of_lt_le (k := 1) (by omega) lt]

theorem andb_128 (b : Byte) : u32andb b.val 128 = if b.val < 128 then 0 else 128 :=
  andb_pow 7 rfl b.isLt

theorem moreByte_val {d : Nat} (lt : d < 128) : (moreByte d).val = d + 128 :=
  Nat.mod_eq_of_lt (by omega)

theorem lastByte_val {d : Nat} (lt : d < 64) (negative : Bool) :
    (lastByte d negative).val = d + if negative then 64 else 0 := by
  apply Nat.mod_eq_of_lt
  split <;> omega

theorem fromAnyInt_eq {negative : Bool} {ds : List Nat} (acc : Nat)
    (lt : ∀ d ∈ ds, d < 128) (fits : horner 128 acc ds * 64 + n % 64 < 2 ^ 32)
    (h : Stands P p (ds.map moreByte ++ [lastByte (n % 64) negative])) (enough : ds.length < fuel) :
    fromAnyInt (getchar P) fuel acc (σ.move p) =
      .ok ((horner 128 acc ds * 64 + n % 64, negative), σ.move (p + (ds.length + 1))) := by
  induction ds generalizing acc p fuel with
  | nil =>
    obtain ⟨fuel, rfl⟩ : ∃ k, fuel = k + 1 := ⟨fuel - 1, by simp at enough; omega⟩
    have digit : n % 64 < 64 := Nat.mod_lt n (by omega)
    have value := lastByte_val digit negative
    have small : (lastByte (n % 64) negative).val < 128 := by
      rw [value]
      split <;> omega
    have low : u32andb (lastByte (n % 64) negative).val 63 = n % 64 := by
      rw [show 63 = 2 ^ 6 - 1 from rfl, u32andb_mask, value]
      split <;> omega
    rw [horner_nil] at fits ⊢
    rw [fromAnyInt, bind_ok (getchar_eq h)]
    simp only [andb_128, small, if_true, low]
    have sum : u32add (u32mul acc 64) (n % 64) = acc * 64 + n % 64 := by
      rw [u32mul, Word.mul_eq (by omega), u32add, Word.add_eq fits]
    have sign : decide (u32andb (lastByte (n % 64) negative).val 64 ≠ 0) = negative := by
      rw [andb_pow (m := 64) 6 rfl small, value]
      cases negative with
      | false => simp [digit]
      | true => simp
    rw [sum, sign]
    rfl
  | cons d ds ih =>
    obtain ⟨fuel, rfl⟩ : ∃ k, fuel = k + 1 := ⟨fuel - 1, by simp at enough; omega⟩
    simp only [List.mem_cons, forall_eq_or_imp] at lt
    have value := moreByte_val lt.1
    have high : ¬ (moreByte d).val < 128 := by omega
    have low : u32andb (moreByte d).val 127 = d := by
      rw [show 127 = 2 ^ 7 - 1 from rfl, u32andb_mask, value]
      omega
    rw [horner_cons] at fits ⊢
    have grow := horner_mono (b := 128) (by omega) (acc * 128 + d) ds
    have next : u32add (u32mul acc 128) d = acc * 128 + d := by
      rw [u32mul, Word.mul_eq (by omega), u32add, Word.add_eq (by omega)]
    have more : ¬ u32andb (moreByte d).val 128 = 0 := by
      rw [andb_128, if_neg high]
      decide
    rw [fromAnyInt, bind_ok (getchar_eq h), if_neg more, low, next]
    rw [ih (acc * 128 + d) lt.2 fits h.tail (by simpa using enough), List.length_cons,
      Nat.add_assoc, Nat.add_comm 1]

theorem fromAnyInt_written {negative : Bool} {ds : List Nat} (small : n < 2 ^ 32)
    (w : Written n negative ds text) (h : Stands P p text) (enough : P.length < fuel) :
    fromAnyInt (getchar P) fuel 0 (σ.move p) = .ok ((n, negative), σ.move (p + text.length)) := by
  have value : horner 128 0 ds * 64 + n % 64 = n := by
    rw [w.value]
    omega
  have length : text.length = ds.length + 1 := by
    rw [w.text]
    simp
  have le := h.length_le
  rw [w.text] at h
  rw [fromAnyInt_eq 0 w.lt (by omega) h (by omega), value, length]

theorem fromAnyInt_int {i : Int} (ge : -2 ^ 31 ≤ i) (lt : i < 2 ^ 32)
    (h : Stands P p (multiwordIntToBytestring i)) (enough : P.length < fuel) :
    fromAnyInt (getchar P) fuel 0 (σ.move p) =
      .ok ((i.natAbs, decide (i < 0)), σ.move (p + (multiwordIntToBytestring i).length)) := by
  obtain ⟨ds, w⟩ := written_int ge lt
  exact fromAnyInt_written (by omega) w h enough

theorem fromLargeInt_reads (convert : Int → Outcome V) {i : Int} (ge : -2 ^ 31 ≤ i)
    (lt : i < 2 ^ 31) (h : Stands P p (multiwordIntToBytestring i)) (enough : P.length < fuel) :
    fromLargeInt convert (getchar P) fuel (σ.move p) =
      orFormat (convert i) (σ.move (p + (multiwordIntToBytestring i).length)) := by
  rw [fromLargeInt, bind_ok (fromAnyInt_int ge (by omega) h enough)]
  have word : largeUntToMultiwordIntX
      (if decide (i < 0) = true then u32sub 0 i.natAbs else i.natAbs) = i := by
    simp only [decide_eq_true_eq]
    by_cases negative : i < 0
    · rw [if_pos negative, largeUntToMultiwordIntX, u32sub, Word.sub]
      split <;> omega
    · rw [if_neg negative, largeUntToMultiwordIntX]
      split <;> omega
  simp only [word]

theorem fromLargeInt_eq {convert : Int → Outcome V} {i : Int} (ge : -2 ^ 31 ≤ i)
    (lt : i < 2 ^ 31) (converted : convert i = .ok v) (h : Stands P p (multiwordIntToBytestring i))
    (enough : P.length < fuel) : fromLargeInt convert (getchar P) fuel (σ.move p) =
      .ok (v, σ.move (p + (multiwordIntToBytestring i).length)) := by
  rw [fromLargeInt_reads convert ge lt h enough, converted]
  rfl

theorem largeUnt_eq {u : Nat} (lt : u < 2 ^ 32) :
    largeUntToBytestring u = multiwordIntToBytestring u := by
  rw [multiwordIntToBytestring, if_pos (by omega), largeUntToBytestring, largeUntFromMultiwordInt]
  congr
  omega

theorem fromLargeUnt_reads (convert : Nat → Outcome V) {u : Nat} (lt : u < 2 ^ 32)
    (h : Stands P p (largeUntToBytestring u)) (enough : P.length < fuel) :
    fromLargeUnt convert (getchar P) fuel (σ.move p) =
      orFormat (convert u) (σ.move (p + (largeUntToBytestring u).length)) := by
  obtain ⟨ds, w⟩ := written lt false
  rw [fromLargeUnt, bind_ok (fromAnyInt_written lt w h enough)]
  rfl

theorem fromLargeUnt_eq {convert : Nat → Outcome V} {u : Nat} (lt : u < 2 ^ 32)
    (converted : convert u = .ok v) (h : Stands P p (largeUntToBytestring u))
    (enough : P.length < fuel) : fromLargeUnt convert (getchar P) fuel (σ.move p) =
      .ok (v, σ.move (p + (largeUntToBytestring u).length)) := by
  rw [fromLargeUnt_reads convert lt h enough, converted]
  rfl

theorem readInt_eq (i : TaggedInt) (h : Stands P p (intToBytestring i.val))
    (enough : P.length < fuel) :
    readInt P fuel (σ.move p) = .ok (i, σ.move (p + (intToBytestring i.val).length)) := by
  have range := i.property
  exact fromLargeInt_eq (by omega) (by omega) (dif_pos range) h enough

theorem readInt1_eq (i : OneWordInt) (h : Stands P p (int1ToBytestring i.val))
    (enough : P.length < fuel) :
    readInt1 P fuel (σ.move p) = .ok (i, σ.move (p + (int1ToBytestring i.val).length)) :=
  fromLargeInt_eq i.property.1 i.property.2 (dif_pos i.property) h enough

theorem readUnt_eq (u : TaggedUnt) (h : Stands P p (untToBytestring u.val))
    (enough : P.length < fuel) :
    readUnt P fuel (σ.move p) = .ok (u, σ.move (p + (untToBytestring u.val).length)) := by
  have lt := u.property
  refine fromLargeUnt_eq (by omega) ?_ h enough
  exact congrArg Except.ok (Subtype.ext (Nat.mod_eq_of_lt lt))

theorem readUnt1_eq (u : OneWordUnt) (h : Stands P p (unt1ToBytestring u.val))
    (enough : P.length < fuel) :
    readUnt1 P fuel (σ.move p) = .ok (u, σ.move (p + (unt1ToBytestring u.val).length)) :=
  fromLargeUnt_eq u.property (congrArg Except.ok (Subtype.ext (Nat.mod_eq_of_lt u.property))) h enough

/-- No text of the code is the front of another. -/
theorem eq_of_front {i j : Int} (hi : -2 ^ 31 ≤ i ∧ i < 2 ^ 32) (hj : -2 ^ 31 ≤ j ∧ j < 2 ^ 32)
    (h : multiwordIntToBytestring i <+: multiwordIntToBytestring j) : i = j := by
  obtain ⟨rest, eq⟩ := h
  have first := fromAnyInt_int (σ := makeUnpickler) hi.1 hi.2 ⟨[], rest, eq.symm, rfl⟩
    (Nat.lt_succ_self _)
  have second := fromAnyInt_int (σ := makeUnpickler) hj.1 hj.2 (stands_self _) (Nat.lt_succ_self _)
  have same := (Prod.mk.inj (Except.ok.inj (first.symm.trans second))).1
  simp only [Prod.mk.injEq, decide_eq_decide] at same
  omega

theorem multiwordInt_injective {i j : Int} (hi : -2 ^ 31 ≤ i ∧ i < 2 ^ 31)
    (hj : -2 ^ 31 ≤ j ∧ j < 2 ^ 31)
    (eq : multiwordIntToBytestring i = multiwordIntToBytestring j) : i = j :=
  eq_of_front ⟨hi.1, by omega⟩ ⟨hj.1, by omega⟩ ⟨[], by rw [List.append_nil, eq]⟩

theorem largeUnt_injective {u v : Nat} (hu : u < 2 ^ 32) (hv : v < 2 ^ 32)
    (eq : largeUntToBytestring u = largeUntToBytestring v) : u = v := by
  rw [largeUnt_eq hu, largeUnt_eq hv] at eq
  have same : (u : Int) = v := eq_of_front ⟨by omega, by omega⟩ ⟨by omega, by omega⟩
    ⟨[], by rw [List.append_nil, eq]⟩
  exact Int.ofNat_inj.mp same

theorem eq_of_reads {r : Text → PickleReader V} {v' : V} {q q' : Nat}
    (h : r x (makeUnpickler.move 0) = .ok (v, makeUnpickler.move q))
    (h' : r x (makeUnpickler.move 0) = .ok (v', makeUnpickler.move q')) : v = v' :=
  (Prod.mk.inj (Except.ok.inj (h.symm.trans h'))).1

/-- A reader returns the value it meets and stops behind it, unless the value does not fit. -/
def ReadsBack (run : Outcome (V × ReaderState)) (after : ReaderState) (fits : Prop)
    (value : fits → V) : Prop :=
  (∀ h, run = .ok (value h, after)) ∧ ∀ e, run = .error e → ¬fits

theorem ReadsBack.of_ok {run : Outcome (V × ReaderState)} {after : ReaderState} {fits : Prop}
    {value : fits → V} (ok : ∀ h, run = .ok (value h, after)) : ReadsBack run after fits value :=
  ⟨ok, fun _ error h => by rw [ok h] at error; cases error⟩

theorem codec_exact :
    (∀ (z : Int) (front back : Text) (fuel : Nat) (σ : ReaderState), -2 ^ 31 ≤ z → z < 2 ^ 32 →
      let P := front ++ (multiwordIntToBytestring z ++ back)
      let start := σ.move front.length
      let after := σ.move (front.length + (multiwordIntToBytestring z).length : Nat)
      P.length < fuel →
      (z < 2 ^ 31 → ∀ (V : Type) (convert : Int → Outcome V),
        fromLargeInt convert (getchar P) fuel start = orFormat (convert z) after) ∧
      (0 ≤ z → ∀ (V : Type) (convert : Nat → Outcome V),
        fromLargeUnt convert (getchar P) fuel start = orFormat (convert z.toNat) after) ∧
      ReadsBack (readInt P fuel start) after (-2 ^ 30 ≤ z ∧ z < 2 ^ 30) (fun h => ⟨z, h⟩) ∧
      ReadsBack (readInt1 P fuel start) after (-2 ^ 31 ≤ z ∧ z < 2 ^ 31) (fun h => ⟨z, h⟩) ∧
      ReadsBack (readUnt P fuel start) after (0 ≤ z ∧ z < 2 ^ 31)
        (fun h => ⟨z.toNat, by omega⟩) ∧
      ReadsBack (readUnt1 P fuel start) after (0 ≤ z ∧ z < 2 ^ 32)
        (fun h => ⟨z.toNat, by omega⟩)) ∧
    (∀ i j : Int, -2 ^ 31 ≤ i ∧ i < 2 ^ 32 → -2 ^ 31 ≤ j ∧ j < 2 ^ 32 →
      multiwordIntToBytestring i <+: multiwordIntToBytestring j → i = j) ∧
    ∀ u : Nat, u < 2 ^ 32 → largeUntToBytestring u = multiwordIntToBytestring u := by
  refine ⟨?_, fun i j hi hj => eq_of_front hi hj, fun u => largeUnt_eq⟩
  intro z front back fuel σ ge lt P start after enough
  have stands : Stands P front.length (multiwordIntToBytestring z) := ⟨front, back, rfl, rfl⟩
  have unsigned (nonneg : 0 ≤ z) : multiwordIntToBytestring z = largeUntToBytestring z.toNat := by
    rw [largeUnt_eq (by omega), Int.toNat_of_nonneg nonneg]
  have unt (V : Type) (nonneg : 0 ≤ z) (convert : Nat → Outcome V) :
      fromLargeUnt convert (getchar P) fuel start = orFormat (convert z.toNat) after := by
    rw [unsigned nonneg] at stands
    rw [fromLargeUnt_reads convert (by omega) stands enough, ← unsigned nonneg]
  refine ⟨fun small V convert => fromLargeInt_reads convert ge small stands enough,
    fun nonneg V convert => unt V nonneg convert, .of_ok fun h => ?_, .of_ok fun h => ?_,
    .of_ok fun h => ?_, .of_ok fun h => ?_⟩
  · exact readInt_eq ⟨z, h⟩ stands enough
  · exact readInt1_eq ⟨z, h⟩ stands enough
  · rw [readUnt, unt _ h.1]
    exact congrArg (fun u => Except.ok (u, after)) (Subtype.ext (Nat.mod_eq_of_lt (by omega)))
  · rw [readUnt1, unt _ h.1]
    exact congrArg (fun u => Except.ok (u, after)) (Subtype.ext (Nat.mod_eq_of_lt (by omega)))

theorem readStringLoop_eq (s l : Text) (h : Stands P p (s.flatMap esc ++ [char '"']))
    (enough : s.length < fuel) :
    (getchar P >>= readStringLoop P fuel l) (σ.move p) =
      .ok (l.reverse ++ s, σ.move (p + (s.flatMap esc ++ [char '"']).length)) := by
  induction s generalizing l p fuel with
  | nil =>
    obtain ⟨fuel, rfl⟩ : ∃ k, fuel = k + 1 := ⟨fuel - 1, by simp at enough; omega⟩
    rw [bind_ok (getchar_eq h), readStringLoop, if_pos rfl, List.append_nil]
    rfl
  | cons c s ih =>
    obtain ⟨fuel, rfl⟩ : ∃ k, fuel = k + 1 := ⟨fuel - 1, by simp at enough; omega⟩
    have rest : s.length < fuel := by simpa using enough
    have plain : char '\\' ≠ char '"' := by decide
    rw [List.flatMap_cons, List.append_assoc] at h ⊢
    have escaped (eq : esc c = [char '\\', c]) :
        (getchar P >>= readStringLoop P (fuel + 1) l) (σ.move p) =
          .ok (l.reverse ++ c :: s,
            σ.move (p + (esc c ++ (s.flatMap esc ++ [char '"'])).length)) := by
      rw [eq] at h ⊢
      rw [bind_ok (getchar_eq h), readStringLoop, if_neg plain, if_pos rfl,
        bind_ok (getchar_eq h.tail), ih (c :: l) h.tail.tail rest]
      simp only [List.reverse_cons, List.append_assoc, List.singleton_append, List.length_append,
        List.length_cons, List.length_nil]
      congr 3
      omega
    by_cases backslash : c = char '\\'
    · exact escaped (by rw [esc, if_pos backslash, backslash])
    · by_cases quote : c = char '"'
      · exact escaped (by rw [esc, if_neg backslash, if_pos quote, quote])
      · by_cases backref : c = 255
        · exact escaped (by rw [esc, if_neg backslash, if_neg quote, if_pos backref, backref])
        · have eq : esc c = [c] := by rw [esc, if_neg backslash, if_neg quote, if_neg backref]
          rw [eq] at h ⊢
          rw [bind_ok (getchar_eq h), readStringLoop, if_neg quote, if_neg backslash,
            ih (c :: l) h.tail rest]
          simp only [List.reverse_cons, List.append_assoc, List.singleton_append,
            List.length_append, List.length_cons, List.length_nil]
          congr 3
          omega

theorem esc_injective {s s' : Text}
    (eq : s.flatMap esc ++ [char '"'] = s'.flatMap esc ++ [char '"']) : s = s' := by
  have read (k : Text) (lt : k.length < s.length + s'.length + 1) :=
    readStringLoop_eq (σ := makeUnpickler) k [] (stands_self (k.flatMap esc ++ [char '"'])) lt
  have second := read s' (by omega)
  rw [← eq] at second
  exact eq_of_reads (r := fun P => getchar P >>= readStringLoop P (s.length + s'.length + 1) [])
    (read s (by omega)) second

theorem quintsWire_injective (inj : ∀ a b, q a = q b → a = b)
    {xs ys : List (Quint X)} (eq : quintsWire q xs = quintsWire q ys) : xs = ys := by
  induction xs generalizing ys with
  | nil =>
    cases ys with
    | nil => rfl
    | cons y ys => cases eq
  | cons x xs ih =>
    cases ys with
    | nil => cases eq
    | cons y ys =>
      obtain ⟨a, b, c, d, e⟩ := x
      simp only [quintsWire, Wire.node.injEq, List.cons.injEq, true_and, and_true] at eq
      rw [inj _ _ eq.1, inj _ _ eq.2.1, inj _ _ eq.2.2.1, inj _ _ eq.2.2.2.1,
        inj _ _ eq.2.2.2.2.1, ih eq.2.2.2.2.2]

theorem listOpcode_val (le : n ≤ 9) : (listOpcode n).val = [toUnt8 (48 + n)] := by
  revert n
  decide

theorem listOpcode_injective {m : Nat} (hm : m ≤ 9) (hn : n ≤ 9)
    (eq : listOpcode m = listOpcode n) : m = n := by
  have same := congrArg Subtype.val eq
  rw [listOpcode_val hm, listOpcode_val hn, List.cons.injEq] at same
  have values := congrArg Fin.val same.1
  rw [toUnt8_val (by omega), toUnt8_val (by omega)] at values
  omega

theorem listOpcode_ne (le : n ≤ 9) : listOpcode n ≠ opcode 'C' (by decide) := by
  intro eq
  have same := congrArg Subtype.val eq
  rw [listOpcode_val le, opcode, List.cons.injEq] at same
  have values := congrArg Fin.val same.1
  rw [toUnt8_val (by omega)] at values
  have : (char 'C').val = 67 := by decide
  omega

theorem listWire_injective (inj : ∀ a b, q a = q b → a = b)
    {xs ys : List X} (eq : listWire q xs = listWire q ys) : xs = ys := by
  have mapInj : Function.Injective (List.map q) := List.map_injective_iff.mpr inj
  rcases listWire_eq q xs with ⟨rfl, wx⟩ | ⟨front, quints, short, rfl, ⟨rfl, -, wx⟩ | ⟨-, wx⟩⟩ <;>
    rcases listWire_eq q ys with
      ⟨rfl, wy⟩ | ⟨front', quints', short', rfl, ⟨rfl, -, wy⟩ | ⟨-, wy⟩⟩ <;>
    replace eq := wx.symm.trans (eq.trans wy)
  case inl.inl => rfl
  case inr.inl.inr.inl =>
    rw [Wire.node.injEq] at eq
    rw [mapInj eq.2.2]
  case inr.inr.inr.inr =>
    rw [Wire.node.injEq] at eq
    have length := listOpcode_injective (by omega) (by omega) eq.2.1
    obtain ⟨fronts, rests⟩ := List.append_inj eq.2.2 (by simpa using length)
    rw [mapInj fronts, quintsWire_injective inj (List.cons.inj rests).1]
  case inr.inl.inr.inr =>
    rw [Wire.node.injEq] at eq
    have := listOpcode_injective (by omega) (by omega) eq.2.1
    omega
  case inr.inr.inr.inl =>
    rw [Wire.node.injEq] at eq
    have := listOpcode_injective (by omega) (by omega) eq.2.1
    omega
  all_goals cases eq

theorem listWire_ne_quintsWire (xs : List X) (quints : List (Quint X)) :
    listWire q xs ≠ quintsWire q quints := by
  intro eq
  have zero : token '0' ≠ token 'N' := by
    intro same
    have : char '0' = char 'N' := (List.cons.inj (congrArg Subtype.val same)).1
    exact absurd this (by decide)
  cases quints with
  | nil =>
    rcases listWire_eq q xs with ⟨-, w⟩ | ⟨front, quints, -, -, ⟨-, -, w⟩ | ⟨-, w⟩⟩
    · rw [w, quintsWire, Wire.leaf.injEq] at eq
      exact zero eq.2
    · rw [w] at eq
      cases eq
    · rw [w] at eq
      cases eq
  | cons quint quints =>
    rcases listWire_eq q xs with ⟨-, w⟩ | ⟨front, quints', short, -, ⟨-, -, w⟩ | ⟨-, w⟩⟩
    · rw [w] at eq
      cases eq
    · rw [w, quintsWire, Wire.node.injEq] at eq
      exact listOpcode_ne (by omega) eq.2.1
    · rw [w, quintsWire, Wire.node.injEq] at eq
      exact listOpcode_ne (by omega) eq.2.1

theorem wire_injective (t : Ty) (v v' : Val t) (eq : wire t v = wire t v') : v = v' := by
  induction t with
  | bool =>
    cases v <;> cases v' <;> first | rfl | exact absurd eq (by
      intro eq
      rw [wire, wire, Wire.leaf.injEq] at eq
      have := (List.cons.inj (congrArg Subtype.val eq.2)).1
      exact absurd this (by decide))
  | int =>
    have texts := congrArg Subtype.val (Wire.leaf.inj eq).2
    have hv := v.property
    have hv' := v'.property
    exact Subtype.ext (multiwordInt_injective (by omega) (by omega) texts)
  | int1 =>
    have texts := congrArg Subtype.val (Wire.leaf.inj eq).2
    exact Subtype.ext (multiwordInt_injective v.property v'.property texts)
  | unt =>
    have texts := congrArg Subtype.val (Wire.leaf.inj eq).2
    have hv := v.property
    have hv' := v'.property
    exact Subtype.ext (largeUnt_injective (by omega) (by omega) texts)
  | unt1 =>
    have texts := congrArg Subtype.val (Wire.leaf.inj eq).2
    exact Subtype.ext (largeUnt_injective v.property v'.property texts)
  | string =>
    have texts := congrArg Subtype.val (Wire.node.inj eq).2.1
    exact esc_injective (List.cons.inj texts).2
  | list t ih => exact listWire_injective ih eq
  | nullOr t ih =>
    cases v with
    | none =>
      cases v' with
      | none => rfl
      | some v' => cases eq
    | some v =>
      cases v' with
      | none => cases eq
      | some v' =>
        have kids := (Wire.node.inj eq).2.2
        rw [ih v v' (List.cons.inj kids).1]
  | pair a b iha ihb =>
    obtain ⟨x, y⟩ := v
    obtain ⟨x', y'⟩ := v'
    have kids := List.cons.inj (Wire.node.inj eq).2.2
    rw [iha x x' kids.1, ihb y y' (List.cons.inj kids.2).1]
  | thunk t ih => exact ih v v' (Wire.thunk.inj eq)

end Mythryl.Unpickler
