import Mythryl.Pickle.Codec

/-!
# What a pickle is

A `Wire` is the tree of constructor calls that a client makes for one value, a `Layout` the way that
tree stands in the pickle: its nodes written out, or a reference in place of a node.
-/

namespace Mythryl.Pickler

def Token := { c : Text // c ≠ [] }

def Opcode := { c : Text // ∃ first rest, c = first :: rest ∧ first.val < 127 }

theorem Opcode.ne_nil (c : Opcode) : c.val ≠ [] := by
  obtain ⟨first, rest, eq, _⟩ := c.property
  simp [eq]

inductive Wire (κ : Type)
  | leaf (tag : Int) (c : Token)
  | node (tag : Int) (c : Opcode) (kids : List (Wire κ))
  | dummy
  | thunk (body : Wire κ)
  | share (v : κ) (tag : Int) (c : Opcode) (kids : List (Wire κ))

variable {α κ : Type}

/-- What sharing sees of a value: neither thunks nor the client's own sharing. -/
inductive Content
  | node (contents : Text) (tag : Int) (kids : List Content)

namespace Wire

mutual

def funtree (sharing : Sharing α κ) : Wire κ → Funtree α
  | leaf tag c => makeFuntreeLeaf tag c.val
  | node tag c kids => makeFuntreeNode tag c.val (funtrees sharing kids)
  | dummy => dummyPickle
  | thunk body => wrapThunk (funtree sharing body)
  | share v tag c kids =>
      adhocShare sharing (fun _ => makeFuntreeNode tag c.val (funtrees sharing kids)) v

def funtrees (sharing : Sharing α κ) : List (Wire κ) → List (Funtree α)
  | [] => []
  | kid :: kids => funtree sharing kid :: funtrees sharing kids

end

mutual

def content : Wire κ → List Content
  | leaf tag c => [.node c.val tag []]
  | node tag c kids => [.node c.val tag (contents kids)]
  | dummy => []
  | thunk body => content body
  | share _ tag c kids => [.node c.val tag (contents kids)]

def contents : List (Wire κ) → List Content
  | [] => []
  | kid :: kids => content kid ++ contents kids

end

mutual

def shares : Wire κ → List κ
  | leaf _ _ => []
  | node _ _ kids => sharesAll kids
  | dummy => []
  | thunk body => shares body
  | share v _ _ kids => v :: sharesAll kids

def sharesAll : List (Wire κ) → List κ
  | [] => []
  | kid :: kids => shares kid ++ sharesAll kids

end

mutual

def bound : Wire κ → Nat
  | leaf _ c => c.val.length
  | node _ c kids => c.val.length + bounds kids + 6
  | dummy => 0
  | thunk body => bound body + 5
  | share _ _ c kids => c.val.length + bounds kids + 6

def bounds : List (Wire κ) → Nat
  | [] => 0
  | kid :: kids => bound kid + bounds kids

end

abbrev Sharer (κ : Type) := κ → Int × Opcode × List (Wire κ)

def Sharer.content (w : Sharer κ) (v : κ) : Content :=
  .node (w v).2.1.val (w v).1 (contents (w v).2.2)

mutual

def Agrees (w : Sharer κ) : Wire κ → Prop
  | leaf _ _ => True
  | node _ _ kids => AgreesAll w kids
  | dummy => True
  | thunk body => Agrees w body
  | share v tag c kids => w v = (tag, c, kids) ∧ AgreesAll w kids

def AgreesAll (w : Sharer κ) : List (Wire κ) → Prop
  | [] => True
  | kid :: kids => Agrees w kid ∧ AgreesAll w kids

end

abbrev NodeSet (κ : Type) := Int → Opcode → List (Wire κ) → Prop

mutual

def Within (N : NodeSet κ) : Wire κ → Prop
  | leaf _ _ => True
  | node tag c kids => N tag c kids ∧ WithinAll N kids
  | dummy => True
  | thunk body => Within N body
  | share _ tag c kids => N tag c kids ∧ WithinAll N kids

def WithinAll (N : NodeSet κ) : List (Wire κ) → Prop
  | [] => True
  | kid :: kids => Within N kid ∧ WithinAll N kids

end

mutual

theorem within_univ (s : Wire κ) : s.Within fun _ _ _ => True := by
  cases s with
  | leaf tag c => trivial
  | node tag c kids => exact ⟨trivial, withinAll_univ kids⟩
  | dummy => trivial
  | thunk body => exact within_univ body
  | share v tag c kids => exact ⟨trivial, withinAll_univ kids⟩

theorem withinAll_univ (kids : List (Wire κ)) : WithinAll (fun _ _ _ => True) kids := by
  cases kids with
  | nil => trivial
  | cons kid kids => exact ⟨within_univ kid, withinAll_univ kids⟩

end

mutual

theorem sizeOf_shared {w : Sharer κ} {v : κ} (s : Wire κ) (agrees : s.Agrees w)
    (mem : v ∈ s.shares) : sizeOf (w v).2.2 < sizeOf s := by
  cases s with
  | leaf tag c => simp [shares] at mem
  | node tag c kids =>
    have := sizeOf_sharedAll kids agrees mem
    simp only [node.sizeOf_spec]
    omega
  | dummy => simp [shares] at mem
  | thunk body =>
    have := sizeOf_shared body agrees mem
    simp only [thunk.sizeOf_spec]
    omega
  | share u tag c kids =>
    simp only [share.sizeOf_spec]
    cases mem with
    | head =>
      rw [agrees.1]
      show sizeOf kids < _
      omega
    | tail _ mem =>
      have := sizeOf_sharedAll kids agrees.2 mem
      omega

theorem sizeOf_sharedAll {w : Sharer κ} {v : κ} (kids : List (Wire κ)) (agrees : AgreesAll w kids)
    (mem : v ∈ sharesAll kids) : sizeOf (w v).2.2 < sizeOf kids := by
  cases kids with
  | nil => simp [sharesAll] at mem
  | cons kid kids =>
    simp only [List.cons.sizeOf_spec]
    cases List.mem_append.mp mem with
    | inl mem =>
      have := sizeOf_shared kid agrees.1 mem
      omega
    | inr mem =>
      have := sizeOf_sharedAll kids agrees.2 mem
      omega

end

theorem Agrees.not_mem {w : Sharer κ} {v : κ} {tag : Int} {c : Opcode} {kids : List (Wire κ)}
    (agrees : (share v tag c kids).Agrees w) : v ∉ sharesAll kids := by
  intro mem
  have := sizeOf_sharedAll kids agrees.2 mem
  rw [agrees.1] at this
  exact lt_irrefl _ this

end Wire

inductive Layout
  | node (key : Key) (kids : List Layout)
  | ref (key : Key) (target : Nat)
  | dummy
  | thunk (zeros : Nat) (body : Layout)

structure Node where
  key : Key
  kids : List Layout

namespace Layout

mutual

@[grind =] def text : Layout → Text
  | node key kids => key.contents ++ texts kids
  | ref _ target => 255 :: intToBytestring target
  | dummy => []
  | thunk zeros body =>
      List.replicate zeros 0 ++ (intToBytestring (text body).length ++ text body)

@[grind =] def texts : List Layout → Text
  | [] => []
  | kid :: kids => text kid ++ texts kids

end

def size (l : Layout) : Nat := l.text.length

def sizes (ls : List Layout) : Nat := (texts ls).length

def lead (zeros : Nat) (body : Layout) : Nat := zeros + (intToBytestring body.size).length

theorem size_node (key : Key) (kids : List Layout) :
    (node key kids).size = key.contents.length + sizes kids := by
  simp [size, sizes, text]

theorem size_ref (key : Key) (target : Nat) :
    (ref key target).size = backrefBytesize + (intToBytestring target).length := by
  simp [size, text, backrefBytesize, Nat.add_comm]

theorem size_thunk (zeros : Nat) (body : Layout) :
    (thunk zeros body).size = lead zeros body + body.size := by
  simp [size, text, lead, Nat.add_assoc]

theorem sizes_cons (kid : Layout) (kids : List Layout) :
    sizes (kid :: kids) = kid.size + sizes kids := by
  simp [size, sizes, texts]

mutual

def sites (start : Nat) : Layout → List (Nat × Node)
  | node key kids => (start, ⟨key, kids⟩) :: sitesAll (start + key.contents.length) kids
  | ref _ _ => []
  | dummy => []
  | thunk zeros body => sites (start + lead zeros body) body

def sitesAll (start : Nat) : List Layout → List (Nat × Node)
  | [] => []
  | kid :: kids => sites start kid ++ sitesAll (start + kid.size) kids

end

/-- A back-reference: where it stands, the key of the node it stands for, and what it points at. -/
structure Ref where
  start : Nat
  key : Key
  target : Nat

mutual

def refs (start : Nat) : Layout → List Ref
  | node key kids => refsAll (start + key.contents.length) kids
  | ref key target => [⟨start, key, target⟩]
  | dummy => []
  | thunk zeros body => refs (start + lead zeros body) body

def refsAll (start : Nat) : List Layout → List Ref
  | [] => []
  | kid :: kids => refs start kid ++ refsAll (start + kid.size) kids

end

mutual

def tree : Layout → Stringtree
  | node key [] => .leaf key.contents
  | node key (kid :: kids) => .node (.leaf key.contents) (trees (kid :: kids))
  | ref _ target => backref target
  | dummy => nullbytes
  | thunk zeros body => .node (pad (.leaf (intToBytestring body.size)) zeros) (tree body)

def trees : List Layout → Stringtree
  | [] => nullbytes
  | [kid] => tree kid
  | kid :: kid' :: kids => .node (tree kid) (trees (kid' :: kids))

end

mutual

theorem le_of_mem_sites {start o : Nat} {n : Node} (l : Layout) (mem : (o, n) ∈ l.sites start) :
    start ≤ o := by
  cases l with
  | node key kids =>
    cases mem with
    | head => exact le_refl _
    | tail _ mem => exact (Nat.le_add_right _ _).trans (le_of_mem_sitesAll kids mem)
  | ref key target => simp [sites] at mem
  | dummy => simp [sites] at mem
  | thunk zeros body => exact (Nat.le_add_right _ _).trans (le_of_mem_sites body mem)

theorem le_of_mem_sitesAll {start o : Nat} {n : Node} (ls : List Layout)
    (mem : (o, n) ∈ sitesAll start ls) : start ≤ o := by
  cases ls with
  | nil => simp [sitesAll] at mem
  | cons kid kids =>
    cases List.mem_append.mp mem with
    | inl mem => exact le_of_mem_sites kid mem
    | inr mem => exact (Nat.le_add_right _ _).trans (le_of_mem_sitesAll kids mem)

end

end Layout

namespace Node

def layout (n : Node) : Layout := .node n.key n.kids

def size (n : Node) : Nat := n.layout.size

theorem size_eq (n : Node) : n.size = n.key.contents.length + Layout.sizes n.kids :=
  Layout.size_node n.key n.kids

end Node

abbrev Table := Map Nat Node

def Table.Extends (T' T : Table) : Prop := ∀ o n, T o = some n → T' o = some n

theorem Table.Extends.refl (T : Table) : T.Extends T := fun _ _ h => h

variable {T : Table}

theorem Table.Extends.trans {T' T'' : Table} (h' : T''.Extends T') (h : T'.Extends T) :
    T''.Extends T := fun o n found => h' o n (h o n found)

mutual

@[grind =] def Coded (T : Table) : Content → Nat → Prop
  | .node contents tag kids, k => ∃ n, T k = some n ∧ n.key.contents = contents ∧
      n.key.typetag = tag ∧ CodedAll T kids n.key.kidlist

@[grind =] def CodedAll (T : Table) : List Content → Codes → Prop
  | [], codes => codes = []
  | kid :: kids, codes => ∃ k rest, codes = k :: rest ∧ Coded T kid k ∧ CodedAll T kids rest

end

theorem CodedAll.append {xs ys : List Content} {ks ls : Codes} (hx : CodedAll T xs ks)
    (hy : CodedAll T ys ls) : CodedAll T (xs ++ ys) (ks ++ ls) := by
  induction xs generalizing ks with
  | nil => rw [CodedAll] at hx; simpa [hx] using hy
  | cons x xs ih =>
    obtain ⟨k, rest, rfl, first, more⟩ := hx
    rw [List.cons_append, List.cons_append, CodedAll]
    exact ⟨k, rest ++ ls, rfl, first, ih more⟩

theorem Coded.found {x : Content} {k : Nat} (h : Coded T x k) : ∃ n, T k = some n := by
  cases x with
  | node contents tag kids =>
    exact h.imp fun _ found => found.1

theorem CodedAll.found {xs : List Content} {ks : Codes} (h : CodedAll T xs ks) {k : Nat}
    (mem : k ∈ ks) : ∃ n, T k = some n := by
  induction xs generalizing ks with
  | nil => rw [CodedAll] at h; simp [h] at mem
  | cons x xs ih =>
    obtain ⟨l, rest, rfl, first, more⟩ := h
    cases mem with
    | head => exact first.found
    | tail _ mem => exact ih more mem

mutual

theorem Coded.extend {T T' : Table} (ext : T'.Extends T) (x : Content) {k : Nat}
    (h : Coded T x k) : Coded T' x k := by
  cases x with
  | node contents tag kids =>
    obtain ⟨n, found, same, typed, coded⟩ := h
    exact ⟨n, ext k n found, same, typed, CodedAll.extend ext kids coded⟩

theorem CodedAll.extend {T T' : Table} (ext : T'.Extends T) (xs : List Content) {ks : Codes}
    (h : CodedAll T xs ks) : CodedAll T' xs ks := by
  cases xs with
  | nil => exact h
  | cons x xs =>
    obtain ⟨k, rest, eq, first, more⟩ := h
    exact ⟨k, rest, eq, Coded.extend ext x first, CodedAll.extend ext xs more⟩

end

mutual

theorem Coded.unique {T : Table} (x y : Content) {k : Nat} (hx : Coded T x k) (hy : Coded T y k) :
    x = y := by
  cases x with
  | node contents tag kids =>
    cases y with
    | node contents' tag' kids' =>
      obtain ⟨n, found, rfl, rfl, coded⟩ := hx
      obtain ⟨n', found', rfl, rfl, coded'⟩ := hy
      obtain rfl : n = n' := Option.some.inj (found.symm.trans found')
      rw [CodedAll.unique kids kids' coded coded']

theorem CodedAll.unique {T : Table} (xs ys : List Content) {ks : Codes} (hx : CodedAll T xs ks)
    (hy : CodedAll T ys ks) : xs = ys := by
  cases xs with
  | nil =>
    cases ys with
    | nil => rfl
    | cons y ys => simp [CodedAll, show ks = [] from hx] at hy
  | cons x xs =>
    cases ys with
    | nil => simp [CodedAll, show ks = [] from hy] at hx
    | cons y ys =>
      obtain ⟨k, rest, rfl, first, more⟩ := hx
      obtain ⟨k', rest', eq, first', more'⟩ := hy
      obtain ⟨rfl, rfl⟩ := List.cons.inj eq
      rw [Coded.unique x y first first', CodedAll.unique xs ys more more']

end

structure Target (T : Table) (start target : Nat) (key : Key) : Prop where
  found : ∃ n, T target = some n ∧ n.key = key ∧ target + n.size ≤ start
  sharable : ∃ first rest, key.contents = first :: rest ∧ first.val < 127

mutual

def Encodes (T : Table) : Wire κ → Nat → Layout → Prop
  | .leaf tag c, _, l => l = .node ⟨c.val, tag, []⟩ []
  | .node tag c kids, start, l => ∃ codes, CodedAll T (Wire.contents kids) codes ∧
      ((∃ ls, l = .node ⟨c.val, tag, codes⟩ ls ∧ EncodesAll T kids (start + c.val.length) ls) ∨
        ∃ target, l = .ref ⟨c.val, tag, codes⟩ target ∧
          Target T start target ⟨c.val, tag, codes⟩)
  | .dummy, _, l => l = .dummy
  | .thunk body, start, l => ∃ zeros l', l = .thunk zeros l' ∧
      Encodes T body (start + Layout.lead zeros l') l'
  | .share _ tag c kids, start, l => ∃ codes, CodedAll T (Wire.contents kids) codes ∧
      ((∃ ls, l = .node ⟨c.val, tag, codes⟩ ls ∧ EncodesAll T kids (start + c.val.length) ls) ∨
        ∃ target, l = .ref ⟨c.val, tag, codes⟩ target ∧
          Target T start target ⟨c.val, tag, codes⟩)

def EncodesAll (T : Table) : List (Wire κ) → Nat → List Layout → Prop
  | [], _, ls => ls = []
  | kid :: kids, start, ls => ∃ l ls', ls = l :: ls' ∧ Encodes T kid start l ∧
      EncodesAll T kids (start + l.size) ls'

end

theorem Target.extend {T' : Table} (ext : T'.Extends T) {start target : Nat} {key : Key}
    (h : Target T start target key) : Target T' start target key :=
  ⟨h.found.imp fun n found => ⟨ext target n found.1, found.2⟩, h.sharable⟩

mutual

theorem Encodes.extend {T T' : Table} (ext : T'.Extends T) (s : Wire κ) {start : Nat} {l : Layout}
    (h : Encodes T s start l) : Encodes T' s start l := by
  cases s with
  | leaf tag c => exact h
  | node tag c kids =>
    obtain ⟨codes, coded, h⟩ := h
    refine ⟨codes, coded.extend ext, ?_⟩
    cases h with
    | inl h => exact .inl (h.imp fun ls h => ⟨h.1, EncodesAll.extend ext kids h.2⟩)
    | inr h => exact .inr (h.imp fun target h => ⟨h.1, h.2.extend ext⟩)
  | dummy => exact h
  | thunk body =>
    obtain ⟨zeros, l', eq, h⟩ := h
    exact ⟨zeros, l', eq, Encodes.extend ext body h⟩
  | share v tag c kids =>
    obtain ⟨codes, coded, h⟩ := h
    refine ⟨codes, coded.extend ext, ?_⟩
    cases h with
    | inl h => exact .inl (h.imp fun ls h => ⟨h.1, EncodesAll.extend ext kids h.2⟩)
    | inr h => exact .inr (h.imp fun target h => ⟨h.1, h.2.extend ext⟩)

theorem EncodesAll.extend {T T' : Table} (ext : T'.Extends T) (kids : List (Wire κ)) {start : Nat}
    {ls : List Layout} (h : EncodesAll T kids start ls) : EncodesAll T' kids start ls := by
  cases kids with
  | nil => exact h
  | cons kid kids =>
    obtain ⟨l, ls', eq, first, more⟩ := h
    exact ⟨l, ls', eq, Encodes.extend ext kid first, EncodesAll.extend ext kids more⟩

end

/-!
# Flattening with flags

`flatten` walks a stringtree from its end with the shared offsets in decreasing order.
-/

namespace Stringtree

def leaves : Stringtree → List Text
  | leaf s => [s]
  | node left right => left.leaves ++ right.leaves

def text (t : Stringtree) : Text := t.leaves.flatten

theorem text_node (left right : Stringtree) : (node left right).text = left.text ++ right.text := by
  simp [text, leaves]

theorem text_leaf (s : Text) : (leaf s).text = s := by simp [text, leaves]

end Stringtree

def Clear (s : Text) : Prop := ∃ first rest, s = first :: rest ∧ first.val < 128

def LeafStart (b : Nat) (t : Stringtree) (o : Nat) : Prop :=
  ∃ xs s ys, t.leaves = xs ++ s :: ys ∧ o = b + xs.flatten.length ∧ Clear s

variable {b o : Nat}

theorem leafStart_leaf {s : Text} : LeafStart b (.leaf s) o ↔ o = b ∧ Clear s := by
  constructor
  · intro ⟨xs, s', ys, eq, start, clear⟩
    cases xs with
    | nil =>
      obtain ⟨rfl, -⟩ := List.cons.inj eq
      exact ⟨start, clear⟩
    | cons x xs =>
      have := (List.cons.inj eq).2
      simp at this
  · intro ⟨start, clear⟩
    exact ⟨[], s, [], rfl, by simpa using start, clear⟩

theorem leafStart_node {left right : Stringtree} : LeafStart b (.node left right) o ↔
      LeafStart b left o ∨ LeafStart (b + left.text.length) right o := by
  constructor
  · intro ⟨xs, s, ys, eq, start, clear⟩
    cases List.append_eq_append_iff.mp eq with
    | inl h =>
      obtain ⟨zs, rfl, eq⟩ := h
      rw [List.append_assoc] at eq
      refine .inr ⟨zs, s, ys, List.append_cancel_left eq, ?_, clear⟩
      rw [start, Stringtree.text, List.flatten_append, List.length_append, Nat.add_assoc]
    | inr h =>
      obtain ⟨zs, eq, rest⟩ := h
      cases zs with
      | nil =>
        refine .inr ⟨[], s, ys, by simpa using rest.symm, ?_, clear⟩
        rw [start, Stringtree.text, eq]
        simp
      | cons z zs =>
        obtain ⟨rfl, -⟩ := List.cons.inj rest
        exact .inl ⟨xs, s, zs, eq, start, clear⟩
  · intro h
    cases h with
    | inl h =>
      obtain ⟨xs, s, ys, eq, start, clear⟩ := h
      exact ⟨xs, s, ys ++ right.leaves, by simp [Stringtree.leaves, eq], start, clear⟩
    | inr h =>
      obtain ⟨xs, s, ys, eq, start, clear⟩ := h
      refine ⟨left.leaves ++ xs, s, ys, by simp [Stringtree.leaves, eq], ?_, clear⟩
      rw [start, Stringtree.text, List.flatten_append, List.length_append, Nat.add_assoc]

theorem LeafStart.lt {t : Stringtree} (h : LeafStart b t o) : b ≤ o ∧ o < b + t.text.length := by
  obtain ⟨xs, s, ys, eq, rfl, first, rest, rfl, -⟩ := h
  simp [Stringtree.text, eq]

def flagged (S : List Nat) : Nat → Text → Text
  | _, [] => []
  | b, c :: cs => (if b ∈ S then toUnt8 (c.val + 128) else c) :: flagged S (b + 1) cs

theorem flagged_append (S : List Nat) (b : Nat) (xs ys : Text) :
    flagged S b (xs ++ ys) = flagged S b xs ++ flagged S (b + xs.length) ys := by
  induction xs generalizing b with
  | nil => simp [flagged]
  | cons x xs ih =>
    rw [List.cons_append, flagged, ih, flagged, List.cons_append, List.length_cons, Nat.add_assoc,
      Nat.add_comm 1]

theorem flagged_congr {S S' : List Nat} (b : Nat) (xs : Text)
    (same : ∀ o, b ≤ o → o < b + xs.length → (o ∈ S ↔ o ∈ S')) :
    flagged S b xs = flagged S' b xs := by
  induction xs generalizing b with
  | nil => rfl
  | cons x xs ih =>
    rw [List.length_cons] at same
    have rest := ih (b + 1) fun o ge lt => same o (by omega) (by omega)
    simp only [flagged, same b (le_refl b) (by omega), rest]

theorem flagged_nil (b : Nat) (xs : Text) : flagged [] b xs = xs := by
  induction xs generalizing b with
  | nil => rfl
  | cons x xs ih => simp [flagged, ih]

theorem flagged_of_not_mem {S : List Nat} {xs : Text}
    (outside : ∀ o ∈ S, b ≤ o → o < b + xs.length → False) : flagged S b xs = xs := by
  have same : flagged S b xs = flagged [] b xs := by
    apply flagged_congr
    intro o ge lt
    exact ⟨fun mem => (outside o mem ge lt).elim, fun mem => (List.not_mem_nil mem).elim⟩
  rw [same, flagged_nil]

theorem flagged_length (S : List Nat) (b : Nat) (xs : Text) :
    (flagged S b xs).length = xs.length := by
  induction xs generalizing b with
  | nil => rfl
  | cons x xs ih => simp [flagged, ih]

theorem flagged_getElem? (S : List Nat) (b i : Nat) (xs : Text) :
    (flagged S b xs)[i]? =
      xs[i]?.map fun c => if b + i ∈ S then toUnt8 (c.val + 128) else c := by
  induction xs generalizing b i with
  | nil => simp [flagged]
  | cons x xs ih =>
    cases i with
    | zero => simp [flagged]
    | succ i =>
      rw [flagged, List.getElem?_cons_succ, List.getElem?_cons_succ, ih, Nat.add_assoc,
        Nat.add_comm 1 i]

theorem add_spec {s : Text} {e : Nat} {more : List Nat} (results : List Text)
    (sorted : (o :: more).Pairwise (· > ·)) (starts : ∀ p ∈ o :: more, e ≤ p → p = e ∧ Clear s) :
    ∃ S results', add s (e + s.length) o more results = .ok (e, S, results') ∧
      S.Pairwise (· > ·) ∧ (∀ p, p ∈ S ↔ p ∈ o :: more ∧ p < e) ∧
      results'.flatten = flagged (o :: more) e s ++ results.flatten := by
  have first := (List.pairwise_cons.mp sorted).1
  cases s with
  | nil =>
    refine ⟨o :: more, results, rfl, sorted, ?_, rfl⟩
    intro p
    refine ⟨fun mem => ⟨mem, ?_⟩, fun h => h.1⟩
    by_contra ge
    obtain ⟨-, c, rest, eq, -⟩ := starts p mem (not_lt.mp ge)
    cases eq
  | cons c rest =>
    simp only [add, Nat.add_sub_cancel]
    by_cases same : e = o
    · subst same
      obtain ⟨-, c', rest', eq, clear⟩ := starts e (.head _) (le_refl e)
      obtain ⟨rfl, rfl⟩ := List.cons.inj eq
      have char : charFromInt (c.val + 128) = .ok (toUnt8 (c.val + 128)) := by
        have lt : c.val + 128 < 256 := by omega
        rw [charFromInt, dif_pos lt]
        exact congrArg Except.ok (Fin.ext (Nat.mod_eq_of_lt lt).symm)
      have text : flagged (e :: more) e (c :: rest) = toUnt8 (c.val + 128) :: rest := by
        rw [flagged, if_pos (List.mem_cons_self ..), flagged_of_not_mem]
        intro p mem ge lt
        have := (starts p mem (by omega)).1
        omega
      have below : ∀ p, p ∈ more ↔ p ∈ e :: more ∧ p < e := by
        intro p
        refine ⟨fun mem => ⟨.tail _ mem, first p mem⟩, ?_⟩
        intro ⟨mem, lt⟩
        cases mem with
        | head => omega
        | tail _ mem => exact mem
      simp only [ne_eq, not_true_eq_false, if_false, char, ok_bind, pure_eq, text]
      have tail := (List.pairwise_cons.mp sorted).2
      split
      case isTrue => exact ⟨more, _, rfl, tail, below, by simp⟩
      case isFalse short =>
        have : rest = [] := by
          apply List.length_eq_zero_iff.mp
          rw [List.length_cons] at short
          omega
        exact ⟨more, _, rfl, tail, below, by simp [this]⟩
    · have below : ∀ p ∈ o :: more, p < e := by
        intro p mem
        by_contra ge
        have eq := (starts p mem (not_lt.mp ge)).1
        cases mem with
        | head => exact same eq.symm
        | tail _ mem =>
          have := first p mem
          have top := starts o (.head _) (by omega)
          omega
      have text : flagged (o :: more) e (c :: rest) = c :: rest := by
        apply flagged_of_not_mem
        intro p mem ge lt
        have := below p mem
        omega
      simp only [same, ne_eq, not_false_eq_true, if_true, pure_eq]
      exact ⟨o :: more, _, rfl, sorted, fun p => ⟨fun mem => ⟨mem, below p mem⟩, fun h => h.1⟩,
        by simp [text]⟩

theorem fastFlatten_flatten (t : Stringtree) (results : List Text) :
    (fastFlatten t results).flatten = t.text ++ results.flatten := by
  induction t, results using fastFlatten.induct with
  | case1 string results => simp [fastFlatten, Stringtree.text_leaf]
  | case2 result x string ih =>
    rw [fastFlatten, ih, Stringtree.text_node, Stringtree.text_leaf]
    simp
  | case3 result a b c ih =>
    rw [fastFlatten, ih]
    simp [Stringtree.text_node]

theorem flatten_spec (t : Stringtree) (triple : Nat × List Nat × List Text) (b : Nat)
    (length : triple.1 = b + t.text.length) (sorted : triple.2.1.Pairwise (· > ·))
    (starts : ∀ o ∈ triple.2.1, LeafStart b t o) : ∃ strings, flatten t triple = .ok strings ∧
      strings.flatten = flagged triple.2.1 b t.text ++ triple.2.2.flatten := by
  induction t, triple using flatten.induct with
  | case1 t e results =>
    rw [flatten]
    exact ⟨_, rfl, by rw [fastFlatten_flatten, flagged_nil]⟩
  | case2 s e o more results =>
    simp only [leafStart_leaf] at starts
    rw [Stringtree.text_leaf] at length
    obtain ⟨S, results', run, -, -, eq⟩ :=
      add_spec results sorted fun p mem _ => starts p mem
    refine ⟨results', ?_, by rw [eq, Stringtree.text_leaf]⟩
    rw [flatten]
    simp only at length
    rw [length, run]
    rfl
  | case3 t s e o more results ih =>
    simp only [leafStart_node, leafStart_leaf] at starts
    rw [Stringtree.text_node, Stringtree.text_leaf, List.length_append, ← Nat.add_assoc] at length
    simp only at length starts sorted
    have starts' : ∀ p ∈ o :: more, b + t.text.length ≤ p → p = b + t.text.length ∧ Clear s := by
      intro p mem ge
      cases starts p mem with
      | inl h => exact absurd h.lt.2 (not_lt.mpr ge)
      | inr h => exact h
    obtain ⟨S, results', run, sorted', below, eq⟩ := add_spec results sorted starts'
    have rest : ∀ p ∈ S, LeafStart b t p := by
      intro p mem
      obtain ⟨mem, lt⟩ := (below p).mp mem
      cases starts p mem with
      | inl h => exact h
      | inr h => omega
    obtain ⟨strings, run', eq'⟩ := ih (b + t.text.length, S, results') rfl sorted' rest
    refine ⟨strings, ?_, ?_⟩
    · rw [flatten, length, run]
      exact run'
    · have same : flagged (o :: more) b t.text = flagged S b t.text := by
        apply flagged_congr
        intro p ge lt
        rw [below]
        exact ⟨fun mem => ⟨mem, lt⟩, fun h => h.1⟩
      rw [eq', eq, Stringtree.text_node, Stringtree.text_leaf, flagged_append, same,
        List.append_assoc]
  | case4 a x c triple ne ih =>
    have text : (Stringtree.node (.node a x) c).text = (Stringtree.node a (.node x c)).text := by
      simp [Stringtree.text_node]
    rw [← text] at length
    obtain ⟨strings, run, eq⟩ := ih length sorted (by
      intro o mem
      have := starts o mem
      simp only [leafStart_node, Stringtree.text_node, List.length_append] at this ⊢
      rw [← Nat.add_assoc, or_assoc]
      exact this)
    refine ⟨strings, ?_, by rw [eq, text]⟩
    rw [← run]
    obtain ⟨e, S, results⟩ := triple
    cases S with
    | nil => exact absurd rfl (ne e results)
    | cons o more => rw [flatten]; simp

theorem stringtreeToString_spec {t : Stringtree} {s : SharedValueOffsets}
    (starts : ∀ o ∈ s, LeafStart 0 t o) :
    stringtreeToString t t.text.length s = .ok (flagged s.valsList 0 t.text) := by
  have sorted : s.valsList.reverse.Pairwise (· > ·) := List.pairwise_reverse.mpr s.sorted
  obtain ⟨strings, run, eq⟩ := flatten_spec t (t.text.length, s.valsList.reverse, []) 0
    (Nat.zero_add _).symm sorted fun o mem => starts o (List.mem_reverse.mp mem)
  rw [stringtreeToString, run]
  have same : flagged s.valsList.reverse 0 t.text = flagged s.valsList 0 t.text :=
    flagged_congr 0 _ fun o _ _ => List.mem_reverse
  simp only [ok_bind, pure_eq, eq, same, List.flatten_nil, List.append_nil]

end Mythryl.Pickler
