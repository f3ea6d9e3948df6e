import Mythryl.Pickle.Layout

/-! # The invariant of a pickling run -/

namespace Mythryl.Pickler

variable {α κ : Type} {sharing : Sharing α κ} {w : Wire.Sharer κ} {N : Wire.NodeSet κ}
  {T T' T₁ T₂ : Table} {O : κ → Prop} {σ σ' σ₁ σ₂ : State α} {ks ks₁ ks₂ : Codes}
  {tree : Stringtree} {tag : Int} {kids : List (Wire κ)}

structure Inv (sharing : Sharing α κ) (w : Wire.Sharer κ) (N : Wire.NodeSet κ) (T : Table) (O : κ → Prop)
    (σ : State α) : Prop where
  found : ∀ key o, σ.picklelocMap key = some o → ∃ n, T o = some n ∧ n.key = key
  closed : ∀ o n, T o = some n → o < o + n.size ∧ o + n.size ≤ σ.pickleBytesize
  kids : ∀ o n, T o = some n → ∀ k ∈ n.key.kidlist, ∃ m, T k = some m
  forwarded : ∀ p o, σ.forwardingMap p = some o → p < σ.pickleBytesize
  adhoc : ∀ v i0, ¬ O v → sharing.find σ.adhocMap v = some i0 →
    i0 < σ.pickleBytesize ∧ Coded T (w.content v) ((σ.forwardingMap i0).getD i0)
  shared : ∀ o ∈ σ.sharedValueOffsets, ∃ tag c kids, N tag c kids ∧
    Coded T (.node c.val tag (Wire.contents kids)) o

variable {n : Node} {o bytesize : Nat} {c : Opcode} {f : Funtree α}

theorem Inv.lt (inv : Inv sharing w N T O σ) (found : T o = some n) :
    o < σ.pickleBytesize := (inv.closed o n found).1.trans_le (inv.closed o n found).2

theorem Inv.advance (inv : Inv sharing w N T O σ) (le : σ.pickleBytesize ≤ bytesize) :
    Inv sharing w N T O { σ with pickleBytesize := bytesize } where
  __ := inv
  closed o n found := (inv.closed o n found).imp_right fun h => h.trans le
  forwarded p o found := (inv.forwarded p o found).trans_le le
  adhoc v i0 closed found := (inv.adhoc v i0 closed found).imp_left fun h => h.trans_le le

theorem Inv.start (w : Wire.Sharer κ) (N : Wire.NodeSet κ) : Inv sharing w N .empty O (startState sharing.emptyMap) where
  found _ _ found := nomatch found
  closed _ _ found := nomatch found
  kids _ _ found := nomatch found
  forwarded _ _ found := nomatch found
  adhoc v i0 _ found := by simp [startState, sharing.find_emptyMap] at found
  shared o mem := absurd mem (mem_sharedValueOffsetsEmpty o)

structure Ran (sharing : Sharing α κ) (w : Wire.Sharer κ) (N : Wire.NodeSet κ) (T T' : Table) (O : κ → Prop)
    (σ σ' : State α) (size : Nat) (sites : List (Nat × Node)) (refs : List Layout.Ref)
    (shares : List κ) (content : List Content) (codes : Codes) : Prop where
  inv : Inv sharing w N T' O σ'
  extend : T'.Extends T
  bytesize : σ'.pickleBytesize = σ.pickleBytesize + size
  fresh : ∀ o n, T' o = some n → T o = some n ∨ (o, n) ∈ sites
  kept : (∀ k ∈ codes, k < σ.pickleBytesize) → T' = T
  frame : ∀ p < σ.pickleBytesize, σ'.forwardingMap p = σ.forwardingMap p
  adhoc : ∀ v, v ∉ shares → sharing.find σ'.adhocMap v = sharing.find σ.adhocMap v
  grow : ∀ o ∈ σ.sharedValueOffsets, o ∈ σ'.sharedValueOffsets
  flags : ∀ r ∈ refs, r.target ∈ σ'.sharedValueOffsets
  coded : CodedAll T' content codes

theorem Ran.trans {m n : Nat} {xs ys : List (Nat × Node)} {ps qs : List Layout.Ref}
    {us vs : List κ} {c d : List Content} (first : Ran sharing w N T T₁ O σ σ₁ m xs ps us c ks₁)
    (second : Ran sharing w N T₁ T₂ O σ₁ σ₂ n ys qs vs d ks₂) :
    Ran sharing w N T T₂ O σ σ₂ (m + n) (xs ++ ys) (ps ++ qs) (us ++ vs) (c ++ d)
      (ks₁ ++ ks₂) where
  inv := second.inv
  extend := second.extend.trans first.extend
  bytesize := by rw [second.bytesize, first.bytesize, Nat.add_assoc]
  fresh := by
    intro o k found
    cases second.fresh o k found with
    | inl found => exact (first.fresh o k found).imp_right (List.mem_append_left ys)
    | inr mem => exact .inr (List.mem_append_right xs mem)
  kept := by
    intro lt
    simp only [List.mem_append] at lt
    have le : σ.pickleBytesize ≤ σ₁.pickleBytesize := by rw [first.bytesize]; omega
    rw [second.kept fun k mem => (lt k (.inr mem)).trans_le le, first.kept fun k mem => lt k (.inl mem)]
  frame := by
    intro p lt
    have le : σ.pickleBytesize ≤ σ₁.pickleBytesize := by rw [first.bytesize]; omega
    rw [second.frame p (lt.trans_le le), first.frame p lt]
  adhoc := by
    intro v mem
    simp only [List.mem_append, not_or] at mem
    rw [second.adhoc v mem.2, first.adhoc v mem.1]
  grow o mem := second.grow o (first.grow o mem)
  flags := by
    intro r mem
    cases List.mem_append.mp mem with
    | inl mem => exact second.grow _ (first.flags r mem)
    | inr mem => exact second.flags r mem
  coded := (first.coded.extend second.extend).append second.coded

theorem Inv.not_found (inv : Inv sharing w N T O σ) (ge : σ.pickleBytesize ≤ o) : T o = none := by
  cases found : T o with
  | none => rfl
  | some n => exact absurd (inv.lt found) (not_lt.mpr ge)

theorem Table.extends_set (none : T o = none) (n : Node) : Table.Extends (Map.set T o n) T := by
  intro p m found
  rw [Map.set_ne _ (fun eq => ?_)]
  · exact found
  · rw [eq, none] at found
    cases found

theorem Inv.insert (inv : Inv sharing w N T O σ)
    (none : T o = none) (pos : 0 < n.size) (end_le : o + n.size ≤ bytesize)
    (le : σ.pickleBytesize ≤ bytesize) (kids : ∀ k ∈ n.key.kidlist, ∃ m, T k = some m) :
    Inv sharing w N (Map.set T o n) O { σ with
        picklelocMap := σ.picklelocMap.set n.key o
        pickleBytesize := bytesize } where
  found := by
    intro key p found
    cases Map.of_set found with
    | inl same => exact ⟨n, by rw [same.2, Map.set_self], same.1.symm⟩
    | inr found =>
      exact (inv.found key p found).imp fun m h => ⟨Table.extends_set none n p m h.1, h.2⟩
  closed := by
    intro p m found
    cases Map.of_set found with
    | inl same => obtain ⟨rfl, rfl⟩ := same; exact ⟨by omega, end_le⟩
    | inr found => exact (inv.closed p m found).imp_right fun h => h.trans le
  kids := by
    intro p m found k mem
    have known : ∃ m, T k = some m := by
      cases Map.of_set found with
      | inl same => obtain ⟨rfl, rfl⟩ := same; exact kids k mem
      | inr found => exact inv.kids p m found k mem
    exact known.imp fun m h => Table.extends_set none n k m h
  forwarded p q found := (inv.forwarded p q found).trans_le le
  adhoc v i0 closed found := by
    obtain ⟨lt, coded⟩ := inv.adhoc v i0 closed found
    exact ⟨lt.trans_le le, coded.extend (Table.extends_set none n)⟩
  shared p mem := by
    obtain ⟨tag, c, kids, member, coded⟩ := inv.shared p mem
    exact ⟨tag, c, kids, member, coded.extend (Table.extends_set none n)⟩

theorem Inv.forward (inv : Inv sharing w N T O σ) {offset : Nat}
    (lt : σ.pickleBytesize < bytesize) :
    Inv sharing w N T O
      { σ with
        forwardingMap := σ.forwardingMap.set σ.pickleBytesize offset
        pickleBytesize := bytesize } where
  __ := inv
  closed o n found := (inv.closed o n found).imp_right fun h => h.trans lt.le
  forwarded := by
    intro p o found
    cases Map.of_set found with
    | inl same => rw [same.1]; exact lt
    | inr found => exact (inv.forwarded p o found).trans lt
  adhoc := by
    intro v i0 closed found
    obtain ⟨less, coded⟩ := inv.adhoc v i0 closed found
    refine ⟨less.trans lt, ?_⟩
    show Coded T _ ((Map.set σ.forwardingMap _ _ i0).getD i0)
    rw [Map.set_ne _ less.ne]
    exact coded

theorem size_pos_of_contents (ne : n.key.contents ≠ []) : 0 < n.size := by
  rw [n.size_eq]
  exact Nat.add_pos_left (List.length_pos_iff.mpr ne) _

structure NodeRan (sharing : Sharing α κ) (w : Wire.Sharer κ) (N : Wire.NodeSet κ) (T T' : Table) (O : κ → Prop)
    (σ σ' : State α) (l : Layout) (shares : List κ) (content : Content) (codes : Codes) : Prop where
  ran : Ran sharing w N T T' O σ σ' l.size (l.sites σ.pickleBytesize) (l.refs σ.pickleBytesize) shares
    [content] codes
  pos : 0 < l.size
  code : ∃ k, codes = [k] ∧ (σ'.forwardingMap σ.pickleBytesize).getD σ.pickleBytesize = k

def leafNode (tag : Int) (c : Text) : Node := ⟨⟨c, tag, []⟩, []⟩

theorem size_leafNode (tag : Int) (c : Text) : (leafNode tag c).size = c.length := by
  simp [Node.size_eq, leafNode, Layout.sizes, Layout.texts]

theorem coded_leaf {c : Text} {k : Nat} (found : T k = some n)
    (same : n.key = ⟨c, tag, []⟩) : CodedAll T [.node c tag []] [k] := by
  refine ⟨k, [], rfl, ⟨n, found, ?_, ?_, ?_⟩, rfl⟩
  · rw [same]
  · rw [same]
  · rw [same]; rfl

theorem makeFuntreeLeaf_ran (inv : Inv sharing w N T O σ) {c : Text} (ne : c ≠ [])
    (run : makeFuntreeLeaf tag c σ = .ok (ks, tree, σ')) :
    tree = .leaf c ∧ ∃ T', NodeRan sharing w N T T' O σ σ' (leafNode tag c).layout []
      (.node c tag []) ks := by
  have pos : 0 < (leafNode tag c).size := size_pos_of_contents ne
  have size := size_leafNode tag c
  obtain ⟨bytesize, sum, run⟩ := bind_eq_ok.mp run
  obtain ⟨-, rfl⟩ := plus_eq_ok.mp sum
  cases seen : σ.picklelocMap ⟨c, tag, []⟩ with
  | some pickleloc =>
    simp only [seen, pure_eq, Except.ok.injEq, Prod.mk.injEq] at run
    obtain ⟨rfl, rfl, rfl⟩ := run
    obtain ⟨n, found, same⟩ := inv.found _ _ seen
    refine ⟨rfl, T, ⟨?_, pos, pickleloc, rfl, by simp⟩⟩
    refine ⟨inv.forward (by omega), .refl T, by rw [← size]; rfl, fun o n h => .inl h, fun _ => rfl,
      fun p lt => Map.set_ne _ lt.ne _, fun v _ => rfl, fun o h => h, (fun r h => nomatch h),
      coded_leaf found same⟩
  | none =>
    simp only [seen, pure_eq, Except.ok.injEq, Prod.mk.injEq] at run
    obtain ⟨rfl, rfl, rfl⟩ := run
    have fresh := inv.not_found (le_refl σ.pickleBytesize)
    have unforwarded : σ.forwardingMap σ.pickleBytesize = none := by
      cases found : σ.forwardingMap σ.pickleBytesize with
      | none => rfl
      | some o => exact absurd (inv.forwarded _ o found) (lt_irrefl _)
    refine ⟨rfl, Map.set T σ.pickleBytesize (leafNode tag c), ⟨?_, pos, _, rfl, by simp [unforwarded]⟩⟩
    refine ⟨?_, Table.extends_set fresh _, by rw [← size]; rfl, ?_, ?_, fun p _ => rfl, fun v _ => rfl,
      fun o h => h, (fun r h => nomatch h), coded_leaf (Map.set_self T _ _) rfl⟩
    · apply inv.insert (n := leafNode tag c) fresh pos
      · omega
      · omega
      · simp [leafNode]
    · intro o n found
      cases Map.of_set found with
      | inl same => exact .inr (by simp [same, Node.layout, leafNode, Layout.sites])
      | inr found => exact .inl found
    · intro lt
      exact absurd (lt _ (List.mem_singleton_self _)) (lt_irrefl _)

theorem Ran.toNode {l : Layout} {us : List κ} {x : Content} {k : Nat}
    (ran : Ran sharing w N T T' O σ σ' l.size (l.sites σ.pickleBytesize) (l.refs σ.pickleBytesize) us
      [x] [k]) (pos : 0 < l.size)
    (code : (σ'.forwardingMap σ.pickleBytesize).getD σ.pickleBytesize = k) :
    NodeRan sharing w N T T' O σ σ' l us x [k] := ⟨ran, pos, k, rfl, code⟩

def KidsFollow (sharing : Sharing α κ) (w : Wire.Sharer κ) (N : Wire.NodeSet κ) (f : Funtree α) (kids : List (Wire κ)) :
    Prop :=
  ∀ T O σ ks tree σ', Inv sharing w N T O σ → (∀ v ∈ Wire.sharesAll kids, ¬ O v) →
    f σ = .ok (ks, tree, σ') →
    ∃ ls T', tree = Layout.trees ls ∧ EncodesAll T' kids σ.pickleBytesize ls ∧
      Ran sharing w N T T' O σ σ' (Layout.sizes ls) (Layout.sitesAll σ.pickleBytesize ls)
        (Layout.refsAll σ.pickleBytesize ls) (Wire.sharesAll kids) (Wire.contents kids) ks

theorem backref_ran (inv : Inv sharing w N T O σ) {s : SharedValueOffsets} {target : Nat}
    (us : List κ) (forwardingMap : Map Nat Nat) (member : N tag c kids)
    (known : ∀ o ∈ s, ∃ tag c kids, N tag c kids ∧ Coded T (.node c.val tag (Wire.contents kids)) o)
    (found : T target = some n) (same : n.key = ⟨c.val, tag, ks⟩)
    (coded : CodedAll T (Wire.contents kids) ks)
    (frame : ∀ p < σ.pickleBytesize, forwardingMap p = σ.forwardingMap p)
    (bound : ∀ p o, forwardingMap p = some o → p < σ.pickleBytesize + backrefBytesize)
    (grow : ∀ o ∈ σ.sharedValueOffsets, o ∈ s) : Target T σ.pickleBytesize target ⟨c.val, tag, ks⟩ ∧
      Ran sharing w N T T O σ { σ with
          forwardingMap
          pickleBytesize :=
            σ.pickleBytesize + (backrefBytesize + (intToBytestring target).length)
          sharedValueOffsets := sharedValueOffsetsAdd s target }
        (Layout.ref ⟨c.val, tag, ks⟩ target).size
        ((Layout.ref ⟨c.val, tag, ks⟩ target).sites σ.pickleBytesize)
        ((Layout.ref ⟨c.val, tag, ks⟩ target).refs σ.pickleBytesize) us
        [.node c.val tag (Wire.contents kids)] [target] := by
  have code : Coded T (.node c.val tag (Wire.contents kids)) target := by
    refine ⟨n, found, ?_, ?_, ?_⟩
    · rw [same]
    · rw [same]
    · rw [same]; exact coded
  refine ⟨⟨⟨n, found, same, (inv.closed target n found).2⟩, c.property⟩, ?_⟩
  refine ⟨⟨inv.found, ?_, inv.kids, ?_, ?_, ?_⟩, .refl T, by rw [Layout.size_ref],
    fun o m h => .inl h, fun _ => rfl, frame, fun v _ => rfl,
    fun o h => mem_sharedValueOffsetsAdd.mpr (.inr (grow o h)), ?_, target, [], rfl, code, rfl⟩
  · intro o m found
    exact (inv.closed o m found).imp_right fun h => h.trans (Nat.le_add_right _ _)
  · intro p o found
    have := bound p o found
    simp only
    omega
  · intro v i0 closed found
    obtain ⟨lt, coded⟩ := inv.adhoc v i0 closed found
    refine ⟨lt.trans_le (Nat.le_add_right _ _), ?_⟩
    show Coded T _ ((forwardingMap i0).getD i0)
    rw [frame i0 lt]
    exact coded
  · intro o mem
    cases mem_sharedValueOffsetsAdd.mp mem with
    | inl eq => exact ⟨tag, c, kids, member, eq ▸ code⟩
    | inr mem => exact known o mem
  · intro r mem
    cases mem with
    | head => exact mem_sharedValueOffsetsAdd.mpr (.inl rfl)
    | tail _ mem => cases mem

theorem makeFuntreeNode_ran (inv : Inv sharing w N T O σ)
    {fs : List (Funtree α)} (member : N tag c kids) (follow : KidsFollow sharing w N (funtreesToFuntree f fs) kids)
    (ne : kids ≠ []) (closed : ∀ v ∈ Wire.sharesAll kids, ¬ O v)
    (run : makeFuntreeNode tag c.val (f :: fs) σ = .ok (ks, tree, σ')) :
    ∃ l T', tree = l.tree ∧ Encodes T' (.node tag c kids) σ.pickleBytesize l ∧
      NodeRan sharing w N T T' O σ σ' l (Wire.sharesAll kids)
        (.node c.val tag (Wire.contents kids)) ks := by
  obtain ⟨bytesize, sum, run⟩ := bind_eq_ok.mp run
  obtain ⟨-, rfl⟩ := plus_eq_ok.mp sum
  obtain ⟨⟨kidoffsets, stringtree, σ₁⟩, kidsRun, run⟩ := bind_eq_ok.mp run
  have ahead := inv.advance (Nat.le_add_right _ c.val.length)
  obtain ⟨ls, T₁, rfl, encodes, ran⟩ := follow T O _ _ _ _ ahead closed kidsRun
  have length_pos : 0 < c.val.length := List.length_pos_iff.mpr c.ne_nil
  cases seen : σ.picklelocMap ⟨c.val, tag, kidoffsets⟩ with
  | some offset =>
    simp only [seen] at run
    obtain ⟨bytesize', sum, run⟩ := bind_eq_ok.mp run
    obtain ⟨-, rfl⟩ := plus_eq_ok.mp sum
    obtain ⟨rfl, rfl, rfl⟩ := run
    obtain ⟨n, found, same⟩ := inv.found _ _ seen
    -- The kids of a node seen before are old, so their encoding left the table as it was.
    have kept : T₁ = T := by
      apply ran.kept
      intro k mem
      obtain ⟨m, known⟩ := inv.kids offset n found k (by rw [same]; exact mem)
      exact (inv.lt known).trans_le (Nat.le_add_right _ _)
    subst kept
    have bound : ∀ p o, σ.forwardingMap.set σ.pickleBytesize offset p = some o →
        p < σ.pickleBytesize + backrefBytesize := by
      intro p o found
      rw [backrefBytesize]
      cases Map.of_set found with
      | inl same => omega
      | inr found => have := inv.forwarded p o found; omega
    obtain ⟨target, ran'⟩ := backref_ran inv (Wire.sharesAll kids) _ member ran.inv.shared found same
      ran.coded (fun p lt => Map.set_ne _ lt.ne _) bound ran.grow
    refine ⟨.ref ⟨c.val, tag, kidoffsets⟩ offset, T₁, rfl, ?_, ?_⟩
    · rw [Encodes]
      exact ⟨kidoffsets, ran.coded, .inr ⟨offset, rfl, target⟩⟩
    · apply ran'.toNode
      · rw [Layout.size_ref, backrefBytesize]
        omega
      · simp
  | none =>
    simp only [seen, pure_eq, Except.ok.injEq, Prod.mk.injEq] at run
    obtain ⟨rfl, rfl, rfl⟩ := run
    let n : Node := ⟨⟨c.val, tag, kidoffsets⟩, ls⟩
    have size : n.size = c.val.length + Layout.sizes ls := n.size_eq
    have bytesize := ran.bytesize
    have fresh : T₁ σ.pickleBytesize = none := by
      cases found : T₁ σ.pickleBytesize with
      | none => rfl
      | some m =>
        cases ran.fresh _ m found with
        | inl old => exact absurd (inv.lt old) (lt_irrefl _)
        | inr mem =>
          have := Layout.le_of_mem_sitesAll ls mem
          simp only at this
          omega
    have unforwarded : σ₁.forwardingMap σ.pickleBytesize = none := by
      rw [ran.frame σ.pickleBytesize (by simp only; omega)]
      cases found : σ.forwardingMap σ.pickleBytesize with
      | none => rfl
      | some o => exact absurd (inv.forwarded _ o found) (lt_irrefl _)
    have ext := Table.extends_set fresh n
    refine ⟨n.layout, Map.set T₁ σ.pickleBytesize n, ?_, ?_, Ran.toNode ?_ ?_ ?_⟩
    · cases kids with
      | nil => exact absurd rfl ne
      | cons kid kids =>
        obtain ⟨l, ls', rfl, -, -⟩ := encodes
        rfl
    · rw [Encodes]
      exact ⟨kidoffsets, ran.coded.extend ext, .inl ⟨ls, rfl, encodes.extend ext⟩⟩
    · have end_eq : σ₁.pickleBytesize = σ.pickleBytesize + n.size := by
        rw [bytesize, size, Nat.add_assoc]
      refine ⟨?_, ext.trans ran.extend, end_eq, ?_, ?_, ?_, ran.adhoc, ran.grow, ran.flags, ?_⟩
      · exact ran.inv.insert fresh (by omega) end_eq.ge (le_refl _) fun k mem => ran.coded.found mem
      · intro o m found
        cases Map.of_set found with
        | inl same => exact .inr (by simp [same, Node.layout, Layout.sites])
        | inr found => exact (ran.fresh o m found).imp_right fun mem => .tail _ mem
      · intro lt
        exact absurd (lt _ (List.mem_singleton_self _)) (lt_irrefl _)
      · intro p lt
        exact ran.frame p (lt.trans_le (Nat.le_add_right _ _))
      · refine ⟨_, [], rfl, ⟨n, Map.set_self _ _ _, rfl, rfl, ?_⟩, rfl⟩
        exact ran.coded.extend ext
    · show 0 < n.size
      omega
    · simp [unforwarded]

def Follows (sharing : Sharing α κ) (w : Wire.Sharer κ) (N : Wire.NodeSet κ) (f : Funtree α) (s : Wire κ) : Prop :=
  ∀ T O σ ks tree σ', Inv sharing w N T O σ → (∀ v ∈ s.shares, ¬ O v) → f σ = .ok (ks, tree, σ') →
    ∃ l T', tree = l.tree ∧ Encodes T' s σ.pickleBytesize l ∧
      Ran sharing w N T T' O σ σ' l.size (l.sites σ.pickleBytesize) (l.refs σ.pickleBytesize) s.shares
        s.content ks

theorem totalStringBytes_pad (t : Stringtree) (n : Nat) :
    totalStringBytes (pad t n) = n + totalStringBytes t := by
  induction n generalizing t with
  | zero => simp [pad]
  | succ n ih =>
    rw [pad, ih]
    simp [totalStringBytes]
    omega

mutual

theorem Layout.totalStringBytes_tree (l : Layout) : totalStringBytes l.tree = l.size := by
  cases l with
  | node key kids =>
    cases kids with
    | nil => rw [size_node]; simp [tree, totalStringBytes, sizes, texts]
    | cons kid kids =>
      rw [size_node, tree, totalStringBytes, totalStringBytes_trees (kid :: kids)]
      rfl
  | ref key target =>
    rw [size_ref]
    simp [tree, backref, totalStringBytes, backrefEscapeString, backrefBytesize]
  | dummy => rfl
  | thunk zeros body =>
    rw [size_thunk, tree, totalStringBytes, totalStringBytes_pad, totalStringBytes_tree body]
    rfl

theorem Layout.totalStringBytes_trees (ls : List Layout) :
    totalStringBytes (trees ls) = sizes ls := by
  match ls with
  | [] => rfl
  | [kid] => rw [trees, sizes_cons, totalStringBytes_tree kid]; rfl
  | kid :: kid' :: kids =>
    rw [trees, totalStringBytes, totalStringBytes_tree kid, totalStringBytes_trees (kid' :: kids),
      sizes_cons kid]

end

theorem wrapThunkLoop_ran (inv : Inv sharing w N T O σ) {body : Wire κ}
    (follow : Follows sharing w N f body) (closed : ∀ v ∈ body.shares, ¬ O v) {fuel nxt ilen : Nat}
    (eq : nxt = σ.pickleBytesize + ilen)
    (run : wrapThunkLoop f σ fuel nxt ilen = .ok (ks, tree, σ')) :
    ∃ l T', tree = l.tree ∧ Encodes T' (.thunk body) σ.pickleBytesize l ∧
      Ran sharing w N T T' O σ σ' l.size (l.sites σ.pickleBytesize) (l.refs σ.pickleBytesize)
        body.shares body.content ks := by
  induction fuel generalizing nxt ilen with
  | zero => cases run
  | succ fuel ih =>
    obtain ⟨⟨kidoffsets, stringtree, σ₁⟩, bodyRun, run⟩ := bind_eq_ok.mp run
    have ahead : Inv sharing w N T O { σ with pickleBytesize := nxt } := inv.advance (by omega)
    obtain ⟨l, T', rfl, encodes, ran⟩ := follow T O _ _ _ _ ahead closed bodyRun
    simp only [Layout.totalStringBytes_tree] at run
    split at run
    case isTrue =>
      obtain ⟨nxt', sum, run⟩ := bind_eq_ok.mp run
      obtain ⟨-, rfl⟩ := plus_eq_ok.mp sum
      exact ih (by omega) run
    case isFalse fits =>
      obtain ⟨rfl, rfl, rfl⟩ := run
      have lead : nxt = σ.pickleBytesize +
          Layout.lead (ilen - (intToBytestring l.size).length) l := by
        rw [Layout.lead]
        omega
      refine ⟨.thunk (ilen - (intToBytestring l.size).length) l, T', rfl, ?_, ?_⟩
      · rw [Encodes]
        exact ⟨_, l, rfl, lead ▸ encodes⟩
      · refine ⟨ran.inv, ran.extend, ?_, ?_, ?_, ?_, ran.adhoc, ran.grow, ?_, ran.coded⟩
        · rw [ran.bytesize, Layout.size_thunk]
          simp only
          omega
        · rw [Layout.sites, ← lead]
          exact ran.fresh
        · intro lt
          apply ran.kept
          intro k mem
          have := lt k mem
          simp only
          omega
        · intro p lt
          apply ran.frame
          simp only
          omega
        · rw [Layout.refs, ← lead]
          exact ran.flags

theorem wrapThunk_follows {body : Wire κ} (follow : Follows sharing w N f body) :
    Follows sharing w N (wrapThunk f) (.thunk body) := by
  intro T O σ ks tree σ' inv closed run
  obtain ⟨nxt, sum, run⟩ := bind_eq_ok.mp run
  obtain ⟨-, rfl⟩ := plus_eq_ok.mp sum
  exact wrapThunkLoop_ran inv follow closed rfl run

theorem adhocShare_follows {v : κ}
    (agrees : (Wire.share v tag c kids).Agrees w) (member : N tag c kids)
    (follow : ∀ T O σ ks tree σ', Inv sharing w N T O σ → (∀ v ∈ Wire.sharesAll kids, ¬ O v) →
      f σ = .ok (ks, tree, σ') →
      ∃ l T', tree = l.tree ∧ Encodes T' (.node tag c kids) σ.pickleBytesize l ∧
        NodeRan sharing w N T T' O σ σ' l (Wire.sharesAll kids)
          (.node c.val tag (Wire.contents kids)) ks) :
    Follows sharing w N (adhocShare sharing (fun _ => f) v) (.share v tag c kids) := by
  intro T O σ ks tree σ' inv closed run
  have content : w.content v = .node c.val tag (Wire.contents kids) := by
    rw [Wire.Sharer.content, agrees.1]
  rw [adhocShare] at run
  cases seen : sharing.find σ.adhocMap v with
  | none =>
    simp only [seen] at run
    let σ₁ := { σ with adhocMap := sharing.insert σ.adhocMap v σ.pickleBytesize }
    have open_v : Inv sharing w N T (fun u => O u ∨ u = v) σ₁ := by
      refine ⟨inv.found, inv.closed, inv.kids, inv.forwarded, ?_, inv.shared⟩
      intro u i0 notOpen found
      rw [not_or] at notOpen
      rw [sharing.find_insert_ne _ _ _ _ notOpen.2] at found
      exact inv.adhoc u i0 notOpen.1 found
    have closed' : ∀ u ∈ Wire.sharesAll kids, ¬ (O u ∨ u = v) := by
      intro u mem either
      cases either with
      | inl isOpen => exact closed u (.tail _ mem) isOpen
      | inr eq => exact agrees.not_mem (eq ▸ mem)
    obtain ⟨l, T', rfl, encodes, ran, pos, k, rfl, code⟩ :=
      follow T _ σ₁ _ _ _ open_v closed' run
    have bytesize := ran.bytesize
    refine ⟨l, T', rfl, encodes, ⟨⟨?_, ?_, ?_, ?_, ?_, ?_⟩, ran.extend, bytesize, ran.fresh, ran.kept,
      ran.frame, ?_, ran.grow, ran.flags, ran.coded⟩⟩
    · exact ran.inv.found
    · exact ran.inv.closed
    · exact ran.inv.kids
    · exact ran.inv.forwarded
    · intro u i0 notOpen found
      by_cases same : u = v
      · rw [same, ran.adhoc v agrees.not_mem, sharing.find_insert] at found
        obtain rfl := Option.some.inj found
        obtain ⟨_, _, eq, coded, _⟩ := ran.coded
        rw [same, content, code]
        obtain ⟨rfl, -⟩ := List.cons.inj eq
        exact ⟨by rw [bytesize]; exact Nat.lt_add_of_pos_right pos, coded⟩
      · exact ran.inv.adhoc u i0 (not_or.mpr ⟨notOpen, same⟩) found
    · exact ran.inv.shared
    · intro u mem
      rw [Wire.shares, List.mem_cons, not_or] at mem
      rw [ran.adhoc u mem.2]
      exact sharing.find_insert_ne _ _ _ _ mem.1
  | some i0 =>
    simp only [seen] at run
    obtain ⟨bytesize, sum, run⟩ := bind_eq_ok.mp run
    obtain ⟨-, rfl⟩ := plus_eq_ok.mp sum
    obtain ⟨rfl, rfl, rfl⟩ := run
    obtain ⟨lt, coded⟩ := inv.adhoc v i0 (closed v (.head _)) seen
    rw [content, Coded] at coded
    obtain ⟨n, found, same, typed, coded⟩ := coded
    have key : n.key = ⟨c.val, tag, n.key.kidlist⟩ := by rw [← same, ← typed]
    obtain ⟨target, ran⟩ := backref_ran inv (Wire.shares (.share v tag c kids)) σ.forwardingMap
      member inv.shared found key coded (fun _ _ => rfl)
      (fun p o found => (inv.forwarded p o found).trans_le (Nat.le_add_right _ _)) (fun o h => h)
    refine ⟨_, T, rfl, ?_, ran⟩
    exact ⟨_, coded, .inr ⟨_, rfl, target⟩⟩

theorem dummyPickle_follows : Follows sharing w N dummyPickle .dummy := by
  intro T O σ ks tree σ' inv closed run
  cases run
  exact ⟨.dummy, T, rfl, rfl, inv, .refl T, rfl, fun o n h => .inl h, fun _ => rfl, fun _ _ => rfl,
    fun _ _ => rfl, fun o h => h, (fun r h => nomatch h), rfl⟩

theorem makeFuntreeLeaf_follows (c : Token) :
    Follows sharing w N (makeFuntreeLeaf tag c.val) (.leaf tag c) := by
  intro T O σ ks tree σ' inv closed run
  obtain ⟨rfl, T', ran⟩ := makeFuntreeLeaf_ran inv c.property run
  exact ⟨_, T', rfl, rfl, ran.ran⟩

theorem both_follows {kid : Wire κ} {g : Funtree α} (first : Follows sharing w N f kid)
    (more : KidsFollow sharing w N g kids) (ne : kids ≠ []) :
    KidsFollow sharing w N (both f g) (kid :: kids) := by
  intro T O σ ks tree σ' inv closed run
  obtain ⟨⟨ks₁, tree₁, σ₁⟩, run₁, run⟩ := bind_eq_ok.mp run
  obtain ⟨⟨ks₂, tree₂, σ₂⟩, run₂, run⟩ := bind_eq_ok.mp run
  obtain ⟨rfl, rfl, rfl⟩ := run
  obtain ⟨l, T₁, rfl, encodes₁, ran₁⟩ :=
    first T O σ _ _ _ inv (fun v mem => closed v (List.mem_append_left _ mem)) run₁
  obtain ⟨ls, T₂, rfl, encodes₂, ran₂⟩ :=
    more T₁ O σ₁ _ _ _ ran₁.inv (fun v mem => closed v (List.mem_append_right _ mem)) run₂
  rw [ran₁.bytesize] at encodes₂ ran₂
  refine ⟨l :: ls, T₂, ?_, ?_, ?_⟩
  · cases kids with
    | nil => exact absurd rfl ne
    | cons kid' kids =>
      obtain ⟨l', ls', rfl, -, -⟩ := encodes₂
      rfl
  · exact ⟨l, ls, rfl, encodes₁.extend ran₂.extend, encodes₂⟩
  · rw [Layout.sizes_cons]
    exact ran₁.trans ran₂

mutual

theorem funtree_follows (s : Wire κ) (agrees : s.Agrees w) (within : s.Within N) :
    Follows sharing w N (s.funtree sharing) s := by
  cases s with
  | leaf tag c => exact makeFuntreeLeaf_follows c
  | node tag c kids =>
    intro T O σ ks tree σ' inv closed run
    obtain ⟨l, T', eq, encodes, ran⟩ := node_follows kids agrees within.1 within.2 T O σ ks tree σ' inv closed run
    exact ⟨l, T', eq, encodes, ran.ran⟩
  | dummy => exact dummyPickle_follows
  | thunk body => exact wrapThunk_follows (funtree_follows body agrees within)
  | share v tag c kids => exact adhocShare_follows agrees within.1 (node_follows kids agrees.2 within.1 within.2)
termination_by (sizeOf s, 0)

theorem node_follows {tag : Int} {c : Opcode} (kids : List (Wire κ)) (agrees : Wire.AgreesAll w kids)
    (member : N tag c kids) (within : Wire.WithinAll N kids) (T O σ ks tree σ') (inv : Inv sharing w N T O σ) (closed : ∀ v ∈ Wire.sharesAll kids, ¬ O v)
    (run : makeFuntreeNode tag c.val (Wire.funtrees sharing kids) σ = .ok (ks, tree, σ')) :
    ∃ l T', tree = l.tree ∧ Encodes T' (.node tag c kids) σ.pickleBytesize l ∧
      NodeRan sharing w N T T' O σ σ' l (Wire.sharesAll kids)
        (.node c.val tag (Wire.contents kids)) ks := by
  match kids with
  | [] =>
    obtain ⟨rfl, T', ran⟩ := makeFuntreeLeaf_ran inv c.ne_nil run
    exact ⟨_, T', rfl, ⟨[], rfl, .inl ⟨[], rfl, rfl⟩⟩, ran⟩
  | kid :: kids =>
    have follow := kids_follow kid kids agrees.1 agrees.2 within.1 within.2
    exact makeFuntreeNode_ran inv member follow (by simp) closed run
termination_by (sizeOf kids, 1)

theorem kids_follow (kid : Wire κ) (kids : List (Wire κ)) (agrees : kid.Agrees w)
    (agreesAll : Wire.AgreesAll w kids) (within : kid.Within N) (withinAll : Wire.WithinAll N kids) :
    KidsFollow sharing w N (funtreesToFuntree (kid.funtree sharing) (Wire.funtrees sharing kids))
      (kid :: kids) := by
  match kids with
  | [] =>
    intro T O σ ks tree σ' inv closed run
    simp only [Wire.sharesAll, Wire.contents, List.append_nil] at closed ⊢
    obtain ⟨l, T', rfl, encodes, ran⟩ := funtree_follows kid agrees within T O σ ks tree σ' inv closed run
    refine ⟨[l], T', rfl, ⟨l, [], rfl, encodes, rfl⟩, ?_⟩
    rw [Layout.sizes_cons, Layout.sitesAll, Layout.sitesAll, List.append_nil, Layout.refsAll,
      Layout.refsAll, List.append_nil]
    exact ran
  | kid' :: kids =>
    apply both_follows (funtree_follows kid agrees within)
    · exact kids_follow kid' kids agreesAll.1 agreesAll.2 withinAll.1 withinAll.2
    · simp
termination_by (sizeOf (kid :: kids), 0)

end

end Mythryl.Pickler

/-! # Back-references and flags -/

namespace Mythryl.Pickler

variable {α κ : Type} {sharing : Sharing α κ} {w : Wire.Sharer κ} {N : Wire.NodeSet κ} {T : Table}

theorem text_pad (t : Stringtree) (n : Nat) : (pad t n).text = List.replicate n 0 ++ t.text := by
  induction n generalizing t with
  | zero => rfl
  | succ n ih =>
    rw [pad, ih, Stringtree.text_node, Stringtree.text_leaf, List.replicate_succ', List.append_assoc]

mutual

theorem Layout.text_tree (l : Layout) : l.tree.text = l.text := by
  cases l with
  | node key kids =>
    cases kids with
    | nil => simp [tree, text, texts, Stringtree.text_leaf]
    | cons kid kids =>
      rw [tree, text, Stringtree.text_node, Stringtree.text_leaf, text_trees (kid :: kids)]
  | ref key target =>
    rw [tree, backref, Stringtree.text_node, backrefEscapeString, Stringtree.text_leaf,
      Stringtree.text_leaf]
    rfl
  | dummy => rfl
  | thunk zeros body =>
    rw [tree, text, Stringtree.text_node, text_pad, Stringtree.text_leaf, text_tree body,
      List.append_assoc]
    rfl

theorem Layout.text_trees (ls : List Layout) : (trees ls).text = texts ls := by
  match ls with
  | [] => rfl
  | [kid] => rw [trees, texts, texts, text_tree kid, List.append_nil]
  | kid :: kid' :: kids =>
    rw [trees, texts, Stringtree.text_node, text_tree kid, text_trees (kid' :: kids)]

end

variable {o m : Nat} {f : Funtree α} {s : Wire κ}

mutual

theorem Layout.leafStart {start o : Nat} {n : Node} (l : Layout) (mem : (o, n) ∈ l.sites start)
    (clear : Clear n.key.contents) : LeafStart start l.tree o := by
  cases l with
  | node key kids =>
    cases kids with
    | nil =>
      simp only [sites, sitesAll, List.mem_singleton, Prod.mk.injEq] at mem
      obtain ⟨rfl, rfl⟩ := mem
      exact leafStart_leaf.mpr ⟨rfl, clear⟩
    | cons kid kids =>
      rw [tree, leafStart_node, leafStart_leaf, Stringtree.text_leaf]
      cases mem with
      | head => exact .inl ⟨rfl, clear⟩
      | tail _ mem => exact .inr (leafStartAll (kid :: kids) mem clear)
  | ref key target => cases mem
  | dummy => cases mem
  | thunk zeros body =>
    rw [tree, leafStart_node, text_pad, Stringtree.text_leaf]
    have := leafStart body mem clear
    rw [lead, ← Nat.add_assoc] at this
    exact .inr (by simpa [Nat.add_assoc] using this)

theorem Layout.leafStartAll {start o : Nat} {n : Node} (ls : List Layout)
    (mem : (o, n) ∈ sitesAll start ls) (clear : Clear n.key.contents) :
    LeafStart start (trees ls) o := by
  match ls with
  | [] => cases mem
  | [kid] =>
    rw [sitesAll, sitesAll, List.append_nil] at mem
    exact leafStart kid mem clear
  | kid :: kid' :: kids =>
    rw [trees, leafStart_node, text_tree kid]
    cases List.mem_append.mp mem with
    | inl mem => exact .inl (leafStart kid mem clear)
    | inr mem => exact .inr (leafStartAll (kid' :: kids) mem clear)

end

mutual

theorem Layout.site_text {start o : Nat} {n : Node} (l : Layout) (mem : (o, n) ∈ l.sites start) :
    ∃ front back, l.text = front ++ (n.layout.text ++ back) ∧ o = start + front.length := by
  cases l with
  | node key kids =>
    cases mem with
    | head => exact ⟨[], [], by simp [Node.layout], rfl⟩
    | tail _ mem =>
      obtain ⟨front, back, eq, rfl⟩ := sitesAll_text kids mem
      refine ⟨key.contents ++ front, back, by rw [text, eq, List.append_assoc], ?_⟩
      rw [List.length_append, Nat.add_assoc]
  | ref key target => cases mem
  | dummy => cases mem
  | thunk zeros body =>
    obtain ⟨front, back, eq, rfl⟩ := site_text body mem
    refine ⟨List.replicate zeros 0 ++ (intToBytestring body.text.length ++ front), back, ?_, ?_⟩
    · rw [text, eq, List.append_assoc, List.append_assoc]
    · simp [lead, size]
      omega

theorem Layout.sitesAll_text {start o : Nat} {n : Node} (ls : List Layout)
    (mem : (o, n) ∈ sitesAll start ls) :
    ∃ front back, texts ls = front ++ (n.layout.text ++ back) ∧ o = start + front.length := by
  cases ls with
  | nil => cases mem
  | cons kid kids =>
    cases List.mem_append.mp mem with
    | inl mem =>
      obtain ⟨front, back, eq, rfl⟩ := site_text kid mem
      exact ⟨front, back ++ texts kids, by rw [texts, eq]; simp, rfl⟩
    | inr mem =>
      obtain ⟨front, back, eq, rfl⟩ := sitesAll_text kids mem
      refine ⟨kid.text ++ front, back, by rw [texts, eq, List.append_assoc], ?_⟩
      rw [size, List.length_append, Nat.add_assoc]

end

mutual

theorem Encodes.target {start : Nat} {l : Layout} {r : Layout.Ref} (s : Wire κ)
    (encodes : Encodes T s start l) (mem : r ∈ l.refs start) : Target T r.start r.target r.key := by
  cases s with
  | leaf tag c =>
    subst encodes
    cases mem
  | node tag c kids =>
    obtain ⟨codes, -, ⟨ls, rfl, encodes⟩ | ⟨target, rfl, h⟩⟩ := encodes
    · exact EncodesAll.target kids encodes mem
    · cases mem with
      | head => exact h
      | tail _ mem => cases mem
  | dummy =>
    subst encodes
    cases mem
  | thunk body =>
    obtain ⟨zeros, l', rfl, encodes⟩ := encodes
    exact Encodes.target body encodes mem
  | share v tag c kids =>
    obtain ⟨codes, -, ⟨ls, rfl, encodes⟩ | ⟨target, rfl, h⟩⟩ := encodes
    · exact EncodesAll.target kids encodes mem
    · cases mem with
      | head => exact h
      | tail _ mem => cases mem

theorem EncodesAll.target {start : Nat} {ls : List Layout} {r : Layout.Ref} (kids : List (Wire κ))
    (encodes : EncodesAll T kids start ls) (mem : r ∈ Layout.refsAll start ls) :
    Target T r.start r.target r.key := by
  cases kids with
  | nil =>
    subst encodes
    cases mem
  | cons kid kids =>
    obtain ⟨l, ls', rfl, first, more⟩ := encodes
    cases List.mem_append.mp mem with
    | inl mem => exact Encodes.target kid first mem
    | inr mem => exact EncodesAll.target kids more mem

end

/-- From a state with `m` bytes to spare the funtree runs, and takes no more than those. -/
def Fits (f : Funtree α) (m : Nat) : Prop :=
  ∀ σ : State α, σ.pickleBytesize + m < 2 ^ 30 →
    ∃ ks tree σ', f σ = .ok (ks, tree, σ') ∧ σ'.pickleBytesize ≤ σ.pickleBytesize + m

theorem plus_ok {x y : Nat} (lt : x + y < 2 ^ 30) : plus x y = .ok (x + y) := if_pos lt

theorem makeFuntreeLeaf_fits (tag : Int) (c : Text) :
    Fits (makeFuntreeLeaf tag c : Funtree α) c.length := by
  intro σ lt
  simp only [makeFuntreeLeaf, plus_ok lt, ok_bind]
  split
  · exact ⟨_, _, _, rfl, le_refl _⟩
  · exact ⟨_, _, _, rfl, le_refl _⟩

theorem Fits.mono {n : Nat} (fits : Fits f m) (le : m ≤ n) : Fits f n := by
  intro σ lt
  obtain ⟨ks, tree, σ', run, le'⟩ := fits σ (by omega)
  exact ⟨ks, tree, σ', run, by omega⟩

theorem both_fits {g : Funtree α} {n : Nat} (hf : Fits f m) (hg : Fits g n) :
    Fits (both f g) (m + n) := by
  intro σ lt
  obtain ⟨ks, tree, σ₁, run, le⟩ := hf σ (by omega)
  obtain ⟨ks', tree', σ₂, run', le'⟩ := hg σ₁ (by omega)
  refine ⟨ks ++ ks', .node tree tree', σ₂, ?_, by omega⟩
  simp only [both, run, run', ok_bind, pure_eq]

theorem makeFuntreeNode_fits {tag : Int} {c : Text} {fs : List (Funtree α)}
    (fits : Fits (funtreesToFuntree f fs) m) :
    Fits (makeFuntreeNode tag c (f :: fs)) (c.length + m + 6) := by
  intro σ lt
  obtain ⟨ks, tree, σ₁, run, le⟩ :=
    fits { σ with pickleBytesize := σ.pickleBytesize + c.length } (by simp only; omega)
  simp only at le
  simp only [makeFuntreeNode, plus_ok (show σ.pickleBytesize + c.length < 2 ^ 30 by omega), run,
    ok_bind]
  split
  case h_1 offset _ =>
    have short := intToBytestring_length_le offset
    have room : σ.pickleBytesize + (backrefBytesize + (intToBytestring offset).length) < 2 ^ 30 := by
      rw [backrefBytesize]
      omega
    rw [plus_ok room]
    refine ⟨_, _, _, rfl, ?_⟩
    simp only [backrefBytesize]
    omega
  case h_2 => exact ⟨_, _, _, rfl, by simp only; omega⟩

theorem adhocShare_fits (sharing : Sharing α κ) {v : κ} (fits : Fits f m)
    (ge : 6 ≤ m) : Fits (adhocShare sharing (fun _ => f) v) m := by
  intro σ lt
  rw [adhocShare]
  split
  case h_1 => exact fits _ lt
  case h_2 i0 _ =>
    have short := intToBytestring_length_le ((σ.forwardingMap i0).getD i0)
    have room : σ.pickleBytesize + (backrefBytesize +
        (intToBytestring ((σ.forwardingMap i0).getD i0)).length) < 2 ^ 30 := by
      rw [backrefBytesize]
      omega
    simp only [plus_ok room, ok_bind]
    refine ⟨_, _, _, rfl, ?_⟩
    simp only [backrefBytesize]
    omega

theorem wrapThunk_fits (fits : Fits f m) : Fits (wrapThunk f) (m + 5) := by
  -- Each round that fails leaves room for one more byte of the size, which has five at most.
  have loop : ∀ (fuel ilen : Nat) (σ : State α), σ.pickleBytesize + (m + 5) < 2 ^ 30 →
      5 < fuel + ilen → ilen ≤ 5 → ∃ ks tree σ',
        wrapThunkLoop f σ fuel (σ.pickleBytesize + ilen) ilen = .ok (ks, tree, σ') ∧
          σ'.pickleBytesize ≤ σ.pickleBytesize + (m + 5) := by
    intro fuel
    induction fuel with
    | zero => intro ilen σ lt more le; omega
    | succ fuel ih =>
      intro ilen σ lt more le
      obtain ⟨ks, tree, σ', run, le'⟩ :=
        fits { σ with pickleBytesize := σ.pickleBytesize + ilen } (by simp only; omega)
      have short := intToBytestring_length_le (totalStringBytes tree)
      simp only [wrapThunkLoop, run, ok_bind]
      split
      case isTrue =>
        rw [plus_ok (by omega)]
        exact ih (ilen + 1) σ lt (by omega) (by omega)
      case isFalse => exact ⟨_, _, _, rfl, by simp only at le'; omega⟩
  intro σ lt
  simp only [wrapThunk, plus_ok (show σ.pickleBytesize + trialStart < 2 ^ 30 by
    rw [trialStart]; omega), ok_bind]
  exact loop 3 3 σ lt (by omega) (by omega)

theorem dummyPickle_fits : Fits (dummyPickle : Funtree α) 0 := fun _ _ =>
  ⟨_, _, _, rfl, le_refl _⟩

mutual

theorem funtree_fits (s : Wire κ) : Fits (s.funtree sharing) s.bound := by
  cases s with
  | leaf tag c => exact makeFuntreeLeaf_fits tag c.val
  | node tag c kids => exact node_fits tag c.val kids
  | dummy => exact dummyPickle_fits
  | thunk body => exact wrapThunk_fits (funtree_fits body)
  | share v tag c kids =>
    apply adhocShare_fits sharing (node_fits tag c.val kids)
    omega
termination_by (sizeOf s, 0)

theorem node_fits (tag : Int) (c : Text) (kids : List (Wire κ)) :
    Fits (makeFuntreeNode tag c (Wire.funtrees sharing kids)) (c.length + Wire.bounds kids + 6) := by
  match kids with
  | [] => exact (makeFuntreeLeaf_fits tag c).mono (by omega)
  | kid :: kids => exact makeFuntreeNode_fits (kids_fit kid kids)
termination_by (sizeOf kids, 1)

theorem kids_fit (kid : Wire κ) (kids : List (Wire κ)) :
    Fits (funtreesToFuntree (kid.funtree sharing) (Wire.funtrees sharing kids))
      (Wire.bounds (kid :: kids)) := by
  match kids with
  | [] => exact funtree_fits kid
  | kid' :: kids => exact both_fits (funtree_fits kid) (kids_fit kid' kids)
termination_by (sizeOf (kid :: kids), 0)

end

structure LaidOut (N : Wire.NodeSet κ) (s : Wire κ) (pickle : Text) (l : Layout) (T : Table)
    (S : List Nat) : Prop where
  encodes : Encodes T s 0 l
  sites : ∀ o n, T o = some n → (o, n) ∈ l.sites 0
  eq : pickle = flagged S 0 l.text
  flags : ∀ r ∈ l.refs 0, r.target ∈ S
  shared : ∀ o ∈ S, ∃ tag c kids, N tag c kids ∧ Coded T (.node c.val tag (Wire.contents kids)) o

theorem Coded.sharable {c : Opcode} {tag : Int} {xs : List Content}
    (coded : Coded T (.node c.val tag xs) o) :
    ∃ n first rest, T o = some n ∧ n.key.contents = first :: rest ∧ first.val < 127 := by
  obtain ⟨n, found, same, -, -⟩ := coded
  obtain ⟨first, rest, eq, lt⟩ := c.property
  exact ⟨n, first, rest, found, same.trans eq, lt⟩

theorem funtreeToPickle_eq {m : α} {ks : Codes} {tree : Stringtree} {σ' : State α}
    (run : f (startState m) = .ok (ks, tree, σ')) (length : σ'.pickleBytesize = tree.text.length)
    (starts : ∀ o ∈ σ'.sharedValueOffsets, LeafStart 0 tree o) :
    funtreeToPickle m f = .ok (flagged σ'.sharedValueOffsets.valsList 0 tree.text) := by
  rw [funtreeToPickle, run, ← stringtreeToString_spec starts, ← length]
  rfl

theorem laidOut (agrees : s.Agrees w) (within : s.Within N) {ks : Codes}
    {tree : Stringtree} {σ' : State α}
    (run : s.funtree sharing (startState sharing.emptyMap) = .ok (ks, tree, σ')) :
    ∃ pickle l T S, funtreeToPickle sharing.emptyMap (s.funtree sharing) = .ok pickle ∧
      pickle.length = σ'.pickleBytesize ∧ LaidOut N s pickle l T S := by
  obtain ⟨l, T, rfl, encodes, ran⟩ := funtree_follows s agrees within .empty (fun _ => False) _ _ _ _
    (Inv.start w N) (fun _ _ => not_false) run
  have sites : ∀ o n, T o = some n → (o, n) ∈ l.sites 0 := by
    intro o n found
    cases ran.fresh o n found with
    | inl old => cases old
    | inr mem => exact mem
  have starts : ∀ o ∈ σ'.sharedValueOffsets, LeafStart 0 l.tree o := by
    intro o mem
    obtain ⟨tag, c, kids, -, coded⟩ := ran.inv.shared o mem
    obtain ⟨n, first, rest, found, eq, lt⟩ := coded.sharable
    exact l.leafStart (sites o n found) ⟨first, rest, eq, by omega⟩
  have length : σ'.pickleBytesize = l.tree.text.length := by
    rw [ran.bytesize, l.text_tree]
    exact Nat.zero_add _
  refine ⟨_, l, T, σ'.sharedValueOffsets.valsList, ?_, ?_, encodes, sites, rfl, ran.flags,
    ran.inv.shared⟩
  · rw [funtreeToPickle_eq run length starts, l.text_tree]
  · rw [flagged_length, length, l.text_tree]

theorem LaidOut.of_pickle (agrees : s.Agrees w) (within : s.Within N) {pickle : Text}
    (run : funtreeToPickle sharing.emptyMap (s.funtree sharing) = .ok pickle) :
    ∃ l T S, LaidOut N s pickle l T S := by
  obtain ⟨⟨ks, tree, σ'⟩, run', -⟩ := bind_eq_ok.mp run
  obtain ⟨pickle', l, T, S, eq, -, out⟩ := laidOut agrees within run'
  obtain rfl := Except.ok.inj (run.symm.trans eq)
  exact ⟨l, T, S, out⟩

theorem funtreeToPickle_total (agrees : s.Agrees w) (within : s.Within N)
    (fits : s.bound < 2 ^ 30) :
    ∃ pickle l T S, funtreeToPickle sharing.emptyMap (s.funtree sharing) = .ok pickle ∧
      pickle.length ≤ s.bound ∧ LaidOut N s pickle l T S := by
  obtain ⟨ks, tree, σ', run, le⟩ := funtree_fits s (startState sharing.emptyMap)
    (by rw [startState]; simp only; omega)
  obtain ⟨pickle, l, T, S, eq, length, out⟩ := laidOut agrees within run
  refine ⟨pickle, l, T, S, eq, ?_, out⟩
  rw [length]
  exact le.trans (Nat.zero_add _).le

theorem LaidOut.length_eq {pickle : Text} {l : Layout} {S : List Nat}
    (out : LaidOut N s pickle l T S) : pickle.length = l.size := by
  rw [out.eq, flagged_length]
  rfl

theorem getElem?_flagged {S : List Nat} {i : Nat} {text : Text} {c : Byte}
    (found : text[i]? = some c) :
    (flagged S 0 text)[i]? = some (if i ∈ S then toUnt8 (c.val + 128) else c) := by
  rw [flagged_getElem?, found, Nat.zero_add]
  rfl

theorem Layout.site_first {l : Layout} {n : Node} (mem : (o, n) ∈ l.sites 0) {first : Byte}
    {rest : Text} (eq : n.key.contents = first :: rest) : l.text[o]? = some first := by
  obtain ⟨front, back, text, rfl⟩ := l.site_text mem
  rw [text, Nat.zero_add, List.getElem?_append_right (le_refl _), Nat.sub_self, Node.layout,
    Layout.text, eq]
  rfl

/-- Every back-reference of a pickle points at a whole node of the same key that ends before it and
whose first byte is flagged; only first bytes of nodes are flagged. -/
theorem back_references_flagged (sharing : Sharing α κ) {w : Wire.Sharer κ} {s : Wire κ}
    (agrees : s.Agrees w) {pickle : Text}
    (run : funtreeToPickle sharing.emptyMap (s.funtree sharing) = .ok pickle) :
    ∃ l T, Encodes T s 0 l ∧ pickle.length = l.text.length ∧
      (∀ r ∈ l.refs 0, ∃ n first, (r.target, n) ∈ l.sites 0 ∧ n.key = r.key ∧
        r.target + n.size ≤ r.start ∧ l.text[r.target]? = some first ∧ first.val < 127 ∧
        pickle[r.target]? = some (toUnt8 (first.val + 128))) ∧
      ∀ i c, l.text[i]? = some c → pickle[i]? = some c ∨
        (∃ n, (i, n) ∈ l.sites 0) ∧ c.val < 127 ∧ pickle[i]? = some (toUnt8 (c.val + 128)) := by
  obtain ⟨l, T, S, out⟩ := LaidOut.of_pickle agrees s.within_univ run
  refine ⟨l, T, out.encodes, out.length_eq, ?_, ?_⟩
  · intro r mem
    obtain ⟨⟨n, found, same, le⟩, first, rest, eq, lt⟩ := out.encodes.target s mem
    have site := out.sites r.target n found
    have text := Layout.site_first site (same ▸ eq)
    refine ⟨n, first, site, same, le, text, lt, ?_⟩
    rw [out.eq, getElem?_flagged text, if_pos (out.flags r mem)]
  · intro i c text
    rw [out.eq, getElem?_flagged text]
    split
    case isTrue mem =>
      obtain ⟨tag, c', kids, -, coded⟩ := out.shared i mem
      obtain ⟨n, first, rest, found, eq, lt⟩ := coded.sharable
      have site := out.sites i n found
      rw [Layout.site_first site eq] at text
      obtain rfl := Option.some.inj text
      exact .inr ⟨⟨n, site⟩, lt, rfl⟩
    case isFalse => exact .inl rfl

def mapSharing [DecidableEq κ] : Sharing (Map κ Nat) κ where
  emptyMap := .empty
  find := fun m v => m v
  insert := Map.set
  find_emptyMap _ := rfl
  find_insert _ _ _ := Map.set_self _ _ _
  find_insert_ne m _ _ _ ne := Map.set_ne m ne _

def twice : Wire Unit :=
  let c : Opcode := ⟨[char 'a'], char 'a', [], rfl, by decide⟩
  .node Tag.pair ⟨[char 'p'], char 'p', [], rfl, by decide⟩ [.share () 7 c [], .share () 7 c []]

theorem back_references_flagged_twice :
    ∃ pickle, funtreeToPickle mapSharing.emptyMap (twice.funtree mapSharing) = .ok pickle ∧
      pickle = [char 'p', char 'a' + 128, 255, 1] ∧
      ∃ l T, Encodes T twice 0 l ∧ pickle.length = l.text.length ∧
        (∀ r ∈ l.refs 0, ∃ n first, (r.target, n) ∈ l.sites 0 ∧ n.key = r.key ∧
          r.target + n.size ≤ r.start ∧ l.text[r.target]? = some first ∧ first.val < 127 ∧
          pickle[r.target]? = some (toUnt8 (first.val + 128))) ∧
        ∀ i c, l.text[i]? = some c → pickle[i]? = some c ∨
          (∃ n, (i, n) ∈ l.sites 0) ∧ c.val < 127 ∧ pickle[i]? = some (toUnt8 (c.val + 128)) := by
  have result : twice.funtree mapSharing (startState mapSharing.emptyMap) =
      .ok ([0], .node (.leaf [char 'p']) (.node (.leaf [char 'a']) (backref 1)), _) := rfl
  have run := funtreeToPickle_eq result rfl (by
    intro o mem
    obtain rfl : o = 1 := List.mem_singleton.mp mem
    exact ⟨[[char 'p']], [char 'a'], _, rfl, rfl, char 'a', [], rfl, by decide⟩)
  have agrees : twice.Agrees fun _ => (7, ⟨[char 'a'], char 'a', [], rfl, by decide⟩, []) :=
    ⟨⟨rfl, trivial⟩, ⟨rfl, trivial⟩, trivial⟩
  exact ⟨_, run, by decide, back_references_flagged mapSharing agrees run⟩

end Mythryl.Pickler
