import Mythryl.Pickle.Placed

/-! # Pickle and unpickle -/

namespace Mythryl.Unpickler
open Pickler

variable {root : Wire Empty} {P : Text} {L : Layout} {T : Table} {S : List Nat} {fuel : Nat}

structure Setting (root : Wire Empty) (P : Text) (L : Layout) (T : Table) (S : List Nat)
    (fuel : Nat) : Prop where
  out : LaidOut (nodes root) root P L T S
  agree : ThunksAgree root
  short : P.length ≤ root.bound
  small : root.bound < 2 ^ 30
  enough : root.bound < fuel

theorem Setting.flags (ctx : Setting root P L T S fuel) {o : Nat} (flag : o ∈ S) :
    ∃ n tag c kids, T o = some n ∧ (o, n) ∈ L.sites 0 ∧ n.key.contents ≠ [] ∧
      .node tag c kids ∈ parts root ∧ CodedAll T (Wire.node tag c kids).content [o] := by
  obtain ⟨tag, c, kids, part, coded⟩ := ctx.out.shared o flag
  obtain ⟨n, first, rest, found, eq, -⟩ := coded.sharable
  exact ⟨n, tag, c, kids, found, ctx.out.sites o n found, by simp [eq], part, o, [], rfl, coded, rfl⟩

theorem LaidOut.text {κ : Type} {N : Wire.NodeSet κ} {s : Wire κ} (out : LaidOut N s P L T S) :
    P = marked S 0 L := by
  rw [out.eq]
  apply flagged_text
  intro o flag _ _
  obtain ⟨tag, c, kids, -, coded⟩ := out.shared o flag
  obtain ⟨n, first, rest, found, eq, -⟩ := coded.sharable
  exact ⟨n, out.sites o n found, by simp [eq]⟩

theorem Setting.text (ctx : Setting root P L T S fuel) : P = marked S 0 L := LaidOut.text ctx.out

variable {l : Layout} {p k : Nat} {c : Opcode} {key : Key} {ls : List Layout} {tag : Int} {n : Node}
  {s : Wire Empty} {H : Heap} {σ : ReaderState} {first : Byte}

theorem Setting.stands (ctx : Setting root P L T S fuel) (h : At S L p l) :
    Stands P p (marked S p l) := by
  rw [ctx.text]
  exact h.text

theorem Setting.same (ctx : Setting root P L T S fuel) {a b : Wire Empty}
    (ha : a ∈ parts root) (hb : b ∈ parts root) (na : IsNode a) (nb : IsNode b)
    (ca : CodedAll T a.content [k]) (cb : CodedAll T b.content [k]) : a = b :=
  ctx.agree a ha b hb na nb (CodedAll.unique _ _ ca cb)

structure Placed (root : Wire Empty) (L : Layout) (T : Table) (S : List Nat) (s : Wire Empty) (p : Nat)
    (l : Layout) : Prop where
  part : s ∈ parts root
  encodes : Encodes T s p l
  place : At S L p l

structure PlacedAll (root : Wire Empty) (L : Layout) (T : Table) (S : List Nat)
    (kids : List (Wire Empty)) (p : Nat) (ls : List Layout) : Prop where
  parts : ∀ s ∈ kids, s ∈ parts root
  encodes : EncodesAll T kids p ls
  place : AllAt S L p ls

theorem Placed.kids {kids : List (Wire Empty)}
    (h : Placed root L T S (.node tag c kids) p (.node key ls)) :
    key.contents = c.val ∧ PlacedAll root L T S kids (p + c.val.length) ls := by
  have encodes := h.encodes
  obtain ⟨codes, -, ⟨ls', eq, encodes⟩ | ⟨target, eq, -⟩⟩ := encodes
  · rw [Layout.node.injEq] at eq
    obtain ⟨rfl, rfl⟩ := eq
    refine ⟨rfl, ?_, encodes, h.place.kids⟩
    intro s mem
    have kid : s ∈ Unpickler.parts (.node tag c kids) := .tail _ (mem_partsAll mem (mem_parts_self s))
    exact parts_trans root kid h.part
  · cases eq

theorem PlacedAll.cons {kid : Wire Empty} {kids : List (Wire Empty)}
    (h : PlacedAll root L T S (kid :: kids) p ls) :
    ∃ l ls', ls = l :: ls' ∧ Placed root L T S kid p l ∧
      PlacedAll root L T S kids (p + l.size) ls' := by
  have encodes := h.encodes
  obtain ⟨l, ls', rfl, first, more⟩ := encodes
  exact ⟨l, ls', rfl, ⟨h.parts _ (.head _), first, h.place.head⟩,
    fun s mem => h.parts s (.tail _ mem), more, h.place.tail⟩

theorem Setting.leaf (ctx : Setting root P L T S fuel) {c : Token}
    (h : Placed root L T S (.leaf tag c) p l) : Stands P p c.val ∧ l.size = c.val.length := by
  have encodes := h.encodes
  have place := h.place
  subst encodes
  have unflagged : p ∉ S := by
    intro flag
    obtain ⟨n, tag', c', kids, found, site, ne, part, coded⟩ := ctx.flags flag
    have here : (p, leafNode tag c.val) ∈ L.sites 0 := place.sites _ (.head _)
    obtain rfl := sites_unique L here site c.property ne
    have coded' : CodedAll T (Wire.leaf (κ := Empty) tag c).content [p] :=
      codedAll_of_encodes (a := .leaf tag c) (n := leafNode tag c.val) trivial h.encodes found
    cases ctx.same h.part part trivial trivial coded' coded
  have stands := ctx.stands place
  rw [marked, decide_eq_false unflagged, markedAll, List.append_nil] at stands
  refine ⟨?_, by simp [Layout.size_node, Layout.sizes, Layout.texts]⟩
  cases contents : c.val with
  | nil => exact absurd contents c.property
  | cons first rest =>
    rw [contents] at stands
    exact stands

theorem Setting.placed (ctx : Setting root P L T S fuel)
    (part : s ∈ parts root) (node : IsNode s) (found : T k = some n)
    (coded : CodedAll T s.content [k]) : Placed root L T S s k n.layout := by
  have site := ctx.out.sites k n found
  obtain ⟨a, part', node', encodes⟩ := encodes_site root ctx.out.encodes site
  obtain rfl := ctx.same part' part node' node (codedAll_of_encodes node' encodes found) coded
  exact ⟨part, encodes, At.site L At.root site⟩

theorem Setting.found (ctx : Setting root P L T S fuel) {kids : List (Wire Empty)}
    (h : Placed root L T S (.node tag c kids) p (.node key ls)) (flag : p ∈ S) :
    T p = some ⟨key, ls⟩ := by
  obtain ⟨n, -, -, -, found, site, ne, -, -⟩ := ctx.flags flag
  have here : (p, (⟨key, ls⟩ : Node)) ∈ L.sites 0 := h.place.sites _ (.head _)
  rw [sites_unique L here site (by rw [h.kids.1]; exact c.ne_nil) ne]
  exact found

abbrev Heap := List ((t : Ty) × Val t)

def Holds (H : Heap) (i : Nat) (x : (t : Ty) × Val t) : Prop := H[i]? = some x

def Grows (H H' : Heap) : Prop := ∀ i x, Holds H i x → Holds H' i x

theorem Grows.refl (H : Heap) : Grows H H := fun _ _ h => h

theorem Grows.trans {H' H'' : Heap} (h : Grows H H') (h' : Grows H' H'') : Grows H H'' :=
  fun i x found => h' i x (h i x found)

def Rel (H : Heap) : (t : Ty) → Val t → Got t → Prop
  | .bool, v, d => v = d
  | .int, v, d => v = d
  | .int1, v, d => v = d
  | .unt, v, d => v = d
  | .unt1, v, d => v = d
  | .string, v, d => v = d
  | .list t, v, d => List.Forall₂ (Rel H t) v d
  | .nullOr t, v, d => Option.Rel (Rel H t) v d
  | .pair a b, v, d => Rel H a v.1 d.1 ∧ Rel H b v.2 d.2
  | .thunk t, v, d => Holds H d ⟨t, v⟩

theorem Rel.grow {H' : Heap} (grows : Grows H H') {t : Ty} {v : Val t} {d : Got t}
    (h : Rel H t v d) : Rel H' t v d := by
  induction t with
  | bool => exact h
  | int => exact h
  | int1 => exact h
  | unt => exact h
  | unt1 => exact h
  | string => exact h
  | list t ih => exact List.Forall₂.imp (fun _ _ => ih) h
  | nullOr t ih =>
    cases h with
    | none => exact .none
    | some h => exact .some (ih h)
  | pair a b iha ihb => exact ⟨iha h.1, ihb h.2⟩
  | thunk t => exact grows _ _ h

def Stand : (t : Ty) → Val t → Wire Empty → Prop
  | .list t, v, s => s = listWire (wire t) v ∨
      ∃ quints, v = unchop quints ∧ s = quintsWire (wire t) quints
  | t, v, s => s = wire t v

theorem stand_wire (t : Ty) (v : Val t) : Stand t v (wire t v) := by
  cases t <;> first | rfl | exact .inl rfl

theorem Stand.unique {t : Ty} {v v' : Val t} (h : Stand t v s) (h' : Stand t v' s) : v = v' := by
  cases t
  case list t =>
    rcases h with eq | ⟨quints, rfl, eq⟩ <;> rcases h' with eq' | ⟨quints', rfl, eq'⟩ <;>
      rw [eq] at eq'
    · exact listWire_injective (wire_injective t) eq'
    · exact absurd eq' (listWire_ne_quintsWire _ _)
    · exact absurd eq'.symm (listWire_ne_quintsWire _ _)
    · rw [quintsWire_injective (wire_injective t) eq']
  all_goals exact wire_injective _ _ _ (h.symm.trans h')

structure Sound (root : Wire Empty) (L : Layout) (T : Table) (S : List Nat) (H : Heap)
    (σ : ReaderState) : Prop where
  length : σ.memos.length = H.length
  memo : ∀ i t v, Holds H i ⟨t, v⟩ → ∃ (start : Nat) (l : Layout) (value : Option (Got t)),
    σ.memos[i]? = some ⟨t, start, value⟩ ∧ Placed root L T S (wire t v) start l ∧
      ∀ d, value = some d → Rel H t v d
  shared : ∀ t o d q, σ.sharemaps t o = some (d, q) → ∃ (k : Nat) (n : Node) (s : Wire Empty) (v : Val t),
    o = k ∧ q = (k + n.size : Nat) ∧ T k = some n ∧ s ∈ parts root ∧ IsNode s ∧
      CodedAll T s.content [k] ∧ Stand t v s ∧ Rel H t v d

theorem Sound.start : Sound root L T S [] makeUnpickler where
  length := rfl
  memo i t v found := by simp [Holds] at found
  shared t o d q found := by cases found

theorem Sound.move (h : Sound root L T S H σ) (p : Nat) :
    Sound root L T S H (σ.move p) := ⟨h.length, h.memo, h.shared⟩

def Yields (root : Wire Empty) (L : Layout) (T : Table) (S : List Nat) (H : Heap) {t : Ty}
    (x : Outcome (Got t × ReaderState)) (stop : Nat) (v : Val t) : Prop :=
  ∃ d σ' H', x = .ok (d, σ') ∧ σ'.position = stop ∧ Grows H H' ∧ Sound root L T S H' σ' ∧
    Rel H' t v d

theorem yields_of_eq {t : Ty} {x : Outcome (Got t × ReaderState)}
    {stop : Nat} {v : Val t} {d : Got t} (sound : Sound root L T S H σ)
    (eq : x = .ok (d, σ.move stop)) (rel : Rel H t v d) : Yields root L T S H x stop v :=
  ⟨d, σ.move stop, H, eq, rfl, .refl H, sound.move stop, rel⟩

theorem Sound.setShared (h : Sound root L T S H σ) {t : Ty}
    {v : Val t} {d : Got t} (found : T k = some n)
    (part : s ∈ parts root) (node : IsNode s) (coded : CodedAll T s.content [k]) (stand : Stand t v s)
    (rel : Rel H t v d) : Sound root L T S H { σ with
      sharemaps := Function.update σ.sharemaps t
        ((σ.sharemaps t).set (k : Int) (d, ((k + n.size : Nat) : Int))) } where
  __ := h
  shared := by
    intro t' o d' q got
    simp only at got
    by_cases same : t' = t
    · subst same
      rw [Function.update_self] at got
      cases Map.of_set got with
      | inl eq =>
        obtain ⟨rfl, eq⟩ := eq
        obtain ⟨rfl, rfl⟩ := Prod.mk.inj eq
        exact ⟨k, n, s, v, rfl, rfl, found, part, node, coded, stand, rel⟩
      | inr old => exact h.shared _ _ _ _ old
    · rw [Function.update_of_ne same] at got
      exact h.shared _ _ _ _ got

theorem unflag (lt : first.val < 127) :
    (toUnt8 (first.val + 128)).val = first.val + 128 := toUnt8_val (by omega)

def ReadsNode (root : Wire Empty) (L : Layout) (T : Table) (S : List Nat) {t : Ty}
    (f : Byte → PickleReader (Got t)) (v : Val t) (tag : Int) (c : Opcode)
    (kids : List (Wire Empty)) : Prop :=
  ∀ first more p key ls H σ, c.val = first :: more →
    Placed root L T S (.node tag c kids) p (.node key ls) → Sound root L T S H σ →
    Yields root L T S H (f first (σ.move (p + 1))) (p + (Layout.node key ls).size) v

theorem Setting.firstTime (_ctx : Setting root P L T S fuel) {t : Ty} {v : Val t}
    {kids : List (Wire Empty)} {f : Byte → PickleReader (Got t)} {more : Text}
    (body : ReadsNode root L T S f v tag c kids) (stand : Stand t v (.node tag c kids))
    (eq : c.val = first :: more) (lt : first.val < 127) (found : T k = some ⟨key, ls⟩)
    (placed : Placed root L T S (.node tag c kids) k (.node key ls))
    (coded : CodedAll T (Wire.node tag c kids).content [k]) (sound : Sound root L T S H σ) :
    Yields root L T S H (Unpickler.firstTime t f k (toUnt8 (first.val + 128)) (σ.move (k + 1)))
      (k + (Layout.node key ls).size) v := by
  obtain ⟨d, σ', H', run, position, grows, sound', rel⟩ :=
    body first more k key ls H σ eq placed sound
  have char : toUnt8 ((toUnt8 (first.val + 128)).val - 128) = first := by
    rw [unflag lt, Nat.add_sub_cancel]
    exact Fin.ext (toUnt8_val (by omega))
  have entry := sound'.setShared found placed.part trivial coded stand rel
  refine ⟨d, _, H', ?_, ?_, grows, entry, rel⟩
  swap
  · exact position
  rw [Unpickler.firstTime, char, bind_ok run, bind_ok (show tell σ' = .ok (σ'.position, σ') from rfl),
    bind_ok (show Unpickler.setShared t k (d, σ'.position) σ' = .ok ((), _) from rfl), position]
  rfl

theorem Setting.stands_node (ctx : Setting root P L T S fuel)
    {kids : List (Wire Empty)} {more : Text}
    (h : Placed root L T S (.node tag c kids) p (.node key ls)) (eq : c.val = first :: more) :
    Stands P p ((if p ∈ S then toUnt8 (first.val + 128) else first) ::
      (more ++ markedAll S (p + c.val.length) ls)) := by
  have stands := ctx.stands h.place
  rw [marked, h.kids.1] at stands
  rw [eq] at stands ⊢
  simpa [flagFirst] using stands

theorem flagged_ne (lt : first.val < 127) : toUnt8 (first.val + 128) ≠ 255 := by
  intro eq
  have := congrArg Fin.val eq
  rw [unflag lt] at this
  omega

theorem Setting.hit (ctx : Setting root P L T S fuel) {t : Ty} {v : Val t}
    {kids : List (Wire Empty)} {d : Got t} {q : Int}
    (stand : Stand t v (.node tag c kids)) (part : .node tag c kids ∈ parts root)
    (found : T k = some n) (coded : CodedAll T (Wire.node tag c kids).content [k])
    (sound : Sound root L T S H σ) (got : σ.sharemaps t k = some (d, q)) :
    q = (k + n.size : Nat) ∧ Rel H t v d := by
  obtain ⟨k', n', s, v', eq, rfl, found', part', node, coded', stand', rel⟩ := sound.shared _ _ _ _ got
  obtain rfl : k = k' := by omega
  obtain rfl : n = n' := Option.some.inj (found.symm.trans found')
  obtain rfl := ctx.same part' part node trivial coded' coded
  rw [stand.unique stand']
  exact ⟨rfl, rel⟩

theorem Setting.readSharableValue (ctx : Setting root P L T S fuel) {t : Ty} {v : Val t}
    {kids : List (Wire Empty)} {f : Byte → PickleReader (Got t)}
    (body : ReadsNode root L T S f v tag c kids)
    (stand : Stand t v (.node tag c kids)) (placed : Placed root L T S (.node tag c kids) p l)
    (sound : Sound root L T S H σ) :
    Yields root L T S H (Unpickler.readSharableValue P fuel t f (σ.move p)) (p + l.size) v := by
  obtain ⟨first, more, eq, lt⟩ := c.property
  have encodes := placed.encodes
  obtain ⟨codes, coded, ⟨ls, rfl, -⟩ | ⟨target, rfl, known⟩⟩ := encodes
  · have stands := ctx.stands_node placed eq
    rw [Unpickler.readSharableValue, bind_ok (getchar_eq stands)]
    by_cases flag : p ∈ S
    · have found := ctx.found placed flag
      have code := codedAll_of_encodes (a := .node tag c kids) (n := ⟨_, ls⟩) trivial
        placed.encodes found
      have high : ¬ (toUnt8 (first.val + 128)).val < 128 := by
        rw [unflag lt]
        omega
      have back : ((p + 1 : Nat) : Int) - 1 = p := by omega
      rw [if_pos flag, if_neg high, if_neg (flagged_ne lt),
        bind_ok (show tell (σ.move (p + 1)) = .ok (((p + 1 : Nat) : Int), σ.move (p + 1)) from rfl)]
      simp only [back]
      rw [bind_ok (show getShared t p (σ.move (p + 1)) = .ok (σ.sharemaps t p, σ.move (p + 1)) from rfl)]
      cases got : σ.sharemaps t p with
      | some entry =>
        obtain ⟨d, q⟩ := entry
        obtain ⟨rfl, rel⟩ := ctx.hit stand placed.part found code sound got
        exact yields_of_eq sound rfl rel
      | none => exact ctx.firstTime body stand eq lt found placed code sound
    · rw [if_neg flag, if_pos (by omega)]
      exact body first more p _ ls H σ eq placed sound
  · obtain ⟨⟨n, found, same, before⟩, -⟩ := known
    have stands := ctx.stands placed.place
    have le := stands.length_le
    have bound := ctx.short
    have small := ctx.small
    have enough := ctx.enough
    have code : CodedAll T (Wire.node tag c kids).content [target] := by
      refine ⟨target, [], rfl, ⟨n, found, ?_, ?_, ?_⟩, rfl⟩
      · rw [same]
      · rw [same]
      · rw [same]; exact coded
    obtain ⟨offset, value⟩ : ∃ offset : TaggedInt, offset.val = (target : Int) :=
      ⟨⟨target, by constructor <;> omega⟩, rfl⟩
    have number := stands.tail
    rw [← value] at number
    have more_fuel : P.length < fuel := by omega
    have read := readInt_eq (σ := σ) offset number more_fuel
    have stop : p + (Layout.ref ⟨c.val, tag, codes⟩ target).size =
        p + 1 + (intToBytestring (target : Nat)).length := by
      rw [Layout.size_ref, backrefBytesize]
      omega
    rw [Unpickler.readSharableValue, bind_ok (getchar_eq stands), if_neg (by decide), if_pos rfl,
      bind_ok read, stop, value,
      bind_ok (show getShared t target (σ.move _) = .ok (σ.sharemaps t target, σ.move _) from rfl)]
    cases got : σ.sharemaps t target with
    | some entry =>
      obtain ⟨-, rel⟩ := ctx.hit stand placed.part found code sound got
      exact yields_of_eq sound rfl rel
    | none =>
      have placed' := ctx.placed placed.part trivial found code
      have flag : target ∈ S := ctx.out.flags _ (placed.place.refs _ (.head _))
      have stands' := ctx.stands_node placed' eq
      rw [if_pos flag] at stands'
      obtain ⟨d, σ', H', run, -, grows, sound', rel⟩ :=
        ctx.firstTime body stand eq lt found placed' code sound
      refine ⟨d, σ'.move _, H', ?_, rfl, grows, sound'.move _, rel⟩
      dsimp only
      rw [bind_ok (show tell (σ.move _) = .ok (_, σ.move _) from rfl),
        bind_ok (show seek (target : Int) (σ.move _) = .ok ((), σ.move target) from rfl),
        bind_ok (getchar_eq stands'), bind_ok run]
      rfl

theorem Setting.readLeaf (ctx : Setting root P L T S fuel) {t : Ty} {c : Char}
    {f : Byte → PickleReader (Got t)}
    (placed : Placed root L T S (.leaf tag (token c)) p l) (low : (char c).val < 128) :
    Unpickler.readSharableValue P fuel t f (σ.move p) = f (char c) (σ.move (p + l.size)) := by
  obtain ⟨stands, size⟩ := ctx.leaf placed
  rw [Unpickler.readSharableValue, bind_ok (getchar_eq stands), if_pos low, size]
  rfl

def ReadsWell (root : Wire Empty) (L : Layout) (T : Table) (S : List Nat) (t : Ty)
    (r : PickleReader (Got t)) : Prop :=
  ∀ v p l H σ, Placed root L T S (wire t v) p l → Sound root L T S H σ →
    Yields root L T S H (r (σ.move p)) (p + l.size) v

theorem readEach_yields {t : Ty} {r : PickleReader (Got t)} (well : ReadsWell root L T S t r)
    (vs : List (Val t)) (rest : List (Wire Empty))
    (placed : PlacedAll root L T S (vs.map (wire t) ++ rest) p ls) (sound : Sound root L T S H σ) :
    ∃ ds σ' H' q ls', readEach r vs.length (σ.move p) = .ok (ds, σ'.move q) ∧
      PlacedAll root L T S rest q ls' ∧ q + Layout.sizes ls' = p + Layout.sizes ls ∧ Grows H H' ∧
      Sound root L T S H' σ' ∧ List.Forall₂ (Rel H' t) vs ds := by
  induction vs generalizing p ls H σ with
  | nil => exact ⟨[], σ, H, p, ls, rfl, placed, rfl, .refl H, sound, .nil⟩
  | cons v vs ih =>
    obtain ⟨l, ls, rfl, first, more⟩ := placed.cons
    obtain ⟨d, σ₁, H₁, run, position, grows, sound₁, rel⟩ := well v p l H σ first sound
    obtain ⟨ds, σ₂, H₂, q, ls', run', placed', stop, grows', sound₂, rels⟩ := ih more sound₁
    rw [move_self position] at run'
    refine ⟨d :: ds, σ₂, H₂, q, ls', ?_, placed', ?_, grows.trans grows', sound₂,
      .cons (rel.grow grows') rels⟩
    · rw [List.length_cons, readEach, bind_ok run, bind_ok run']
      rfl
    · rw [Layout.sizes_cons, stop, Nat.add_assoc]

theorem PlacedAll.nil (h : PlacedAll root L T S [] p ls) : Layout.sizes ls = 0 := by
  have encodes := h.encodes
  rw [encodes]
  rfl

theorem Placed.opened {kids : List (Wire Empty)}
    (h : Placed root L T S (.node tag c kids) p (.node key ls)) :
    (Layout.node key ls).size = c.val.length + Layout.sizes ls ∧
      PlacedAll root L T S kids (p + c.val.length) ls :=
  ⟨by rw [Layout.size_node, h.kids.1], h.kids.2⟩

theorem length_le_flatMap_esc (s : Text) : s.length ≤ (s.flatMap esc).length := by
  induction s with
  | nil => simp
  | cons c s ih =>
    have pos : 0 < (esc c).length := by
      simp only [esc]
      split <;> (try split) <;> (try split) <;> simp
    rw [List.flatMap_cons, List.length_append, List.length_cons]
    omega

theorem Setting.readString (ctx : Setting root P L T S fuel) :
    ReadsWell root L T S .string (Unpickler.readString P fuel) := by
  intro s p l H σ placed sound
  apply ctx.readSharableValue ?_ (stand_wire .string s) placed sound
  intro first more p key ls H σ eq placed sound
  have stands := (ctx.stands_node placed eq).tail.left
  obtain ⟨size, kids⟩ := placed.opened
  obtain ⟨kid, ls', rfl, isDummy, none⟩ := kids.cons
  have zero : Layout.sizes (kid :: ls') = 0 := by
    have encodes := isDummy.encodes
    rw [Layout.sizes_cons, none.nil, encodes]
    rfl
  obtain ⟨rfl, rfl⟩ := List.cons.inj eq
  have le : p + 1 + (s.flatMap esc ++ [char '"']).length ≤ P.length := stands.length_le
  rw [List.length_append] at le
  have enough := ctx.enough
  have short := ctx.short
  have long := length_le_flatMap_esc s
  have run := readStringLoop_eq (σ := σ) s [] stands (show s.length < fuel by omega)
  have stop : p + 1 + (s.flatMap esc ++ [char '"']).length =
      p + ((stringOpcode s).val.length + 0) := by
    simp only [stringOpcode, List.length_cons, List.length_append, List.cons_append]
    omega
  rw [stop] at run
  refine yields_of_eq sound ?_ rfl
  rw [readString', if_pos rfl, size, zero]
  exact run

theorem Setting.readPair (ctx : Setting root P L T S fuel) {a b : Ty} {ra : PickleReader (Got a)}
    {rb : PickleReader (Got b)} (wella : ReadsWell root L T S a ra)
    (wellb : ReadsWell root L T S b rb) :
    ReadsWell root L T S (.pair a b) (Unpickler.readPair P fuel a b ra rb) := by
  intro v p l H σ placed sound
  obtain ⟨x, y⟩ := v
  apply ctx.readSharableValue ?_ (stand_wire (.pair a b) (x, y)) placed sound
  intro first more p key ls H σ eq placed sound
  obtain ⟨size, kids⟩ := placed.opened
  obtain ⟨l₁, ls, rfl, placed₁, kids⟩ := kids.cons
  obtain ⟨l₂, ls, rfl, placed₂, none⟩ := kids.cons
  obtain ⟨d, σ₁, H₁, run, position, grows, sound₁, rel⟩ := wella x _ l₁ H σ placed₁ sound
  obtain ⟨e, σ₂, H₂, run', position', grows', sound₂, rel'⟩ := wellb y _ l₂ H₁ σ₁ placed₂ sound₁
  rw [move_self position] at run'
  obtain ⟨rfl, rfl⟩ := List.cons.inj eq
  refine ⟨(d, e), σ₂, H₂, ?_, ?_, grows.trans grows', sound₂, rel.grow grows', rel'⟩
  · rw [readPair', if_pos rfl]
    exact (bind_ok run).trans ((bind_ok run').trans rfl)
  · rw [position', size, Layout.sizes_cons, Layout.sizes_cons, none.nil]
    simp only [Nat.add_zero, Nat.add_assoc]

theorem Setting.readNullOr (ctx : Setting root P L T S fuel) {t : Ty} {r : PickleReader (Got t)}
    (well : ReadsWell root L T S t r) :
    ReadsWell root L T S (.nullOr t) (Unpickler.readNullOr P fuel t r) := by
  intro v p l H σ placed sound
  cases v with
  | none =>
    refine yields_of_eq sound ?_ .none
    exact (ctx.readLeaf placed (by decide)).trans (by rw [readNullOr', if_pos rfl]; rfl)
  | some v =>
    apply ctx.readSharableValue ?_ (stand_wire (.nullOr t) (some v)) placed sound
    intro first more p key ls H σ eq placed sound
    obtain ⟨size, kids⟩ := placed.opened
    obtain ⟨l, ls, rfl, placed, none⟩ := kids.cons
    obtain ⟨d, σ', H', run, position, grows, sound', rel⟩ := well v _ l H σ placed sound
    obtain ⟨rfl, rfl⟩ := List.cons.inj eq
    refine ⟨some d, σ', H', ?_, ?_, grows, sound', .some rel⟩
    · rw [readNullOr', if_neg (by decide), if_pos rfl]
      exact (bind_ok run).trans rfl
    · rw [position, size, Layout.sizes_cons, none.nil, Nat.add_zero, Nat.add_assoc]

theorem quints_length_le {X κ : Type} (q : X → Wire κ) (quints : List (Quint X)) :
    quints.length ≤ (quintsWire q quints).bound := by
  induction quints with
  | nil => simp
  | cons quint quints ih =>
    simp only [quintsWire, Wire.bound, Wire.bounds, List.length_cons]
    omega

theorem Setting.readChops (ctx : Setting root P L T S fuel) {t : Ty} {r : PickleReader (Got t)}
    (well : ReadsWell root L T S t r) (quints : List (Quint (Val t))) {rounds : Nat}
    (enough : quints.length < rounds)
    (placed : Placed root L T S (quintsWire (wire t) quints) p l) (sound : Sound root L T S H σ) :
    Yields (t := .list t) root L T S H (Unpickler.readChops P fuel t r rounds (σ.move p))
      (p + l.size) (unchop quints) := by
  induction quints generalizing rounds p l H σ with
  | nil =>
    obtain ⟨rounds, rfl⟩ : ∃ k, rounds = k + 1 := ⟨rounds - 1, by simp at enough; omega⟩
    refine yields_of_eq sound ?_ .nil
    exact (ctx.readLeaf (t := .list t) placed (by decide)).trans (by rw [readchopslist, if_pos rfl]; rfl)
  | cons quint quints ih =>
    obtain ⟨rounds, rfl⟩ : ∃ k, rounds = k + 1 := ⟨rounds - 1, by simp at enough; omega⟩
    have rest : quints.length < rounds := by simpa using enough
    obtain ⟨a, b, c, d, e⟩ := quint
    apply ctx.readSharableValue (t := .list t) ?_ (.inr ⟨_, rfl, rfl⟩) placed sound
    intro first more p key ls H σ eq placed sound
    obtain ⟨size, kids⟩ := placed.opened
    obtain ⟨five, σ₁, H₁, q, ls', run, kids, stop, grows, sound₁, rels⟩ :=
      readEach_yields well [a, b, c, d, e] [quintsWire (wire t) quints] kids sound
    obtain ⟨l, ls', rfl, placed', none⟩ := kids.cons
    obtain ⟨ds, σ₂, H₂, run', position, grows', sound₂, rel⟩ := ih rest placed' sound₁
    obtain ⟨rfl, rfl⟩ := List.cons.inj eq
    refine ⟨five ++ ds, σ₂, H₂, ?_, ?_, grows.trans grows', sound₂, ?_⟩
    · rw [readchopslist, if_neg (by decide), if_pos rfl]
      exact (bind_ok run).trans ((bind_ok run').trans rfl)
    · rw [Layout.sizes_cons, none.nil] at stop
      rw [position, size, ← Nat.add_assoc, ← stop, Nat.add_zero]
    · exact List.rel_append (rels.imp fun _ _ h => h.grow grows') rel

theorem readlist_front {t : Ty} (r : PickleReader (Got t)) {n : Nat} (pos : 0 < n) (le : n ≤ 4) :
    readlist P fuel t r (toUnt8 (48 + n)) = readEach r n := by
  interval_cases n <;> rfl

theorem readlist_chops {t : Ty} (r : PickleReader (Got t)) {n : Nat} (le : n ≤ 4) :
    readlist P fuel t r (toUnt8 (48 + (5 + n))) = readFrontAndChops P fuel t r n := by
  interval_cases n <;> rfl

theorem Setting.readList (ctx : Setting root P L T S fuel) {t : Ty} {r : PickleReader (Got t)}
    (well : ReadsWell root L T S t r) :
    ReadsWell root L T S (.list t) (Unpickler.readList P fuel t r) := by
  intro v p l H σ placed sound
  rcases listWire_eq (wire t) v with ⟨rfl, w⟩ | ⟨front, quints, short, rfl, h⟩
  · have leaf : Placed root L T S (.leaf Tag.list (token '0')) p l := w ▸ placed
    refine yields_of_eq sound ?_ .nil
    exact (ctx.readLeaf (t := .list t) leaf (by decide)).trans (by rw [readlist, if_pos rfl]; rfl)
  · rcases h with ⟨rfl, pos, w⟩ | ⟨-, w⟩
    · have node : Placed root L T S (.node Tag.list (listOpcode front.length) (front.map (wire t)))
          p l := w ▸ placed
      apply ctx.readSharableValue (t := .list t) ?_ (.inl w.symm) node sound
      intro first more p key ls H σ eq placed sound
      obtain ⟨size, kids⟩ := placed.opened
      rw [← List.append_nil (front.map (wire t))] at kids
      obtain ⟨ds, σ₁, H₁, q, ls', run, kids, stop, grows, sound₁, rels⟩ :=
        readEach_yields well front [] kids sound
      have code := listOpcode_val (show front.length ≤ 9 by omega)
      rw [code] at eq run stop size
      obtain ⟨rfl, rfl⟩ := List.cons.inj eq
      refine ⟨ds, σ₁.move q, H₁, ?_, ?_, grows, sound₁.move q, ?_⟩
      · rw [readlist_front r pos short]
        exact run
      · rw [kids.nil, Nat.add_zero] at stop
        rw [move_position, stop, size, Nat.add_assoc]
      · have whole : front ++ unchop [] = front := List.append_nil front
        rw [whole]
        exact rels
    · have node : Placed root L T S (.node Tag.list (listOpcode (5 + front.length))
          (front.map (wire t) ++ [quintsWire (wire t) quints])) p l := w ▸ placed
      apply ctx.readSharableValue (t := .list t) ?_ (.inl w.symm) node sound
      intro first more p key ls H σ eq placed sound
      obtain ⟨size, kids⟩ := placed.opened
      obtain ⟨ds, σ₁, H₁, q, ls', run, kids, stop, grows, sound₁, rels⟩ :=
        readEach_yields well front [quintsWire (wire t) quints] kids sound
      obtain ⟨l, ls', rfl, placed', none⟩ := kids.cons
      have fits : quints.length < fuel := by
        have := quints_length_le (wire t) quints
        have := bound_le_of_mem root placed'.part
        have := ctx.enough
        omega
      obtain ⟨es, σ₂, H₂, run', position, grows', sound₂, rel⟩ :=
        ctx.readChops well quints fits placed' sound₁
      have code := listOpcode_val (show 5 + front.length ≤ 9 by omega)
      rw [code] at eq run stop size
      obtain ⟨rfl, rfl⟩ := List.cons.inj eq
      refine ⟨ds ++ es, σ₂, H₂, ?_, ?_, grows.trans grows', sound₂, ?_⟩
      · rw [readlist_chops r short, readFrontAndChops]
        exact (bind_ok run).trans ((bind_ok run').trans rfl)
      · rw [Layout.sizes_cons, none.nil] at stop
        rw [position, size, ← Nat.add_assoc, ← stop, Nat.add_zero]
      · exact List.rel_append (rels.imp fun _ _ h => h.grow grows') rel

theorem size_pos_of_encodes {κ : Type} {s : Wire κ} (encodes : Encodes T s p l)
    (ne : s ≠ .dummy) : 0 < l.size := by
  cases s with
  | leaf tag c =>
    rw [encodes, Layout.size_node]
    exact Nat.add_pos_left (List.length_pos_iff.mpr c.property) _
  | node tag c kids =>
    obtain ⟨codes, -, ⟨ls, rfl, -⟩ | ⟨target, rfl, -⟩⟩ := encodes
    · rw [Layout.size_node]
      exact Nat.add_pos_left (List.length_pos_iff.mpr c.ne_nil) _
    · rw [Layout.size_ref]
      exact Nat.add_pos_left Nat.one_pos _
  | dummy => exact absurd rfl ne
  | thunk body =>
    obtain ⟨zeros, l', rfl, -⟩ := encodes
    have := intToBytestring_length_pos l'.size
    rw [Layout.size_thunk, Layout.lead]
    omega
  | share v tag c kids =>
    obtain ⟨codes, -, ⟨ls, rfl, -⟩ | ⟨target, rfl, -⟩⟩ := encodes
    · rw [Layout.size_node]
      exact Nat.add_pos_left (List.length_pos_iff.mpr c.ne_nil) _
    · rw [Layout.size_ref]
      exact Nat.add_pos_left Nat.one_pos _

theorem wire_ne_dummy (t : Ty) (v : Val t) : wire t v ≠ .dummy := by
  cases t
  case list t =>
    show listWire (wire t) v ≠ .dummy
    rcases listWire_eq (wire t) v with ⟨-, w⟩ | ⟨_, _, -, -, ⟨-, -, w⟩ | ⟨-, w⟩⟩ <;> rw [w] <;> simp
  all_goals first
    | (cases v <;> simp [wire])
    | simp [wire]

theorem getSize_eq {zeros rounds size : Nat} (pos : 0 < size)
    (small : size < 2 ^ 30) (h : Stands P p (List.replicate zeros 0 ++ intToBytestring size))
    (fits : P.length < fuel) (enough : zeros < rounds) : getSize P fuel rounds (σ.move p) =
      .ok (size, σ.move (p + (zeros + (intToBytestring size).length))) := by
  induction zeros generalizing p rounds with
  | zero =>
    obtain ⟨rounds, rfl⟩ : ∃ k, rounds = k + 1 := ⟨rounds - 1, by omega⟩
    have read := readInt_eq (σ := σ) ⟨size, by omega, by omega⟩ h fits
    have ne : ¬ ((size : Nat) : Int) = 0 := by omega
    rw [getSize, bind_ok read, if_neg ne, Nat.zero_add]
    rfl
  | succ zeros ih =>
    obtain ⟨rounds, rfl⟩ : ∃ k, rounds = k + 1 := ⟨rounds - 1, by omega⟩
    have zero : intToBytestring 0 = [0] := by decide
    have first : Stands P p (intToBytestring 0) := by
      exact Stands.left (x := [0]) h
    have read := readInt_eq (σ := σ) ⟨0, by omega, by omega⟩ first fits
    rw [getSize, bind_ok read, if_pos rfl]
    have fewer : zeros < rounds := by omega
    show getSize P fuel rounds (σ.move (p + (intToBytestring 0).length)) = _
    rw [zero, List.length_singleton, ih h.tail fewer, Nat.add_right_comm zeros 1, Nat.add_assoc p 1,
      Nat.add_comm 1]

theorem Sound.seek (h : Sound root L T S H σ) (q : Int) :
    Sound root L T S H { σ with position := q } := ⟨h.length, h.memo, h.shared⟩

theorem Sound.append (h : Sound root L T S H σ) {t : Ty} (v : Val t)
    {start : Nat} (placed : Placed root L T S (wire t v) start l) : Grows H (H ++ [⟨t, v⟩]) ∧
      Sound root L T S (H ++ [⟨t, v⟩]) { σ with memos := σ.memos ++ [⟨t, start, none⟩] } := by
  have grows : Grows H (H ++ [⟨t, v⟩]) := by
    intro i x found
    rw [Holds, List.getElem?_append_left (List.getElem?_eq_some_iff.mp found).1]
    exact found
  refine ⟨grows, by simp [h.length], ?_, ?_⟩
  · intro i u x found
    rw [Holds, List.getElem?_append] at found
    split at found
    case isTrue lt =>
      obtain ⟨start', l', value, memo, placed', rel⟩ := h.memo i u x found
      refine ⟨start', l', value, ?_, placed', fun d eq => (rel d eq).grow grows⟩
      rw [List.getElem?_append_left (by rw [h.length]; exact lt)]
      exact memo
    case isFalse ge =>
      have zero : i - H.length = 0 := by
        have := (List.getElem?_eq_some_iff.mp found).1
        simpa using this
      rw [zero] at found
      cases found
      refine ⟨start, l, none, ?_, placed, fun d eq => nomatch eq⟩
      rw [List.getElem?_append_right (by rw [h.length]; omega), h.length, zero]
      rfl
  · intro u o d q got
    obtain ⟨k, n, s, x, rfl, rfl, found, part, node, coded, stand, rel⟩ := h.shared u o d q got
    exact ⟨k, n, s, x, rfl, rfl, found, part, node, coded, stand, rel.grow grows⟩

theorem readLazy_skips {zeros size : Nat} (pos : 0 < size) (small : P.length < 2 ^ 30)
    (h : Stands P p (List.replicate zeros 0 ++ intToBytestring size ++ body))
    (whole : body.length = size) (enough : P.length < fuel) (t : Ty) :
    Unpickler.readLazy P fuel t (σ.move p) = .ok (σ.memos.length, ReaderState.move
        { σ with memos := σ.memos ++ [⟨t, (p + (zeros + (intToBytestring size).length) : Nat), none⟩] }
        (p + (zeros + (intToBytestring size).length + size))) := by
  have le := h.length_le
  simp only [List.length_append, List.length_replicate, whole] at le
  have read := getSize_eq (σ := σ) pos (by omega) h.left enough (show zeros < fuel by omega)
  have sum : plusInt ((p + (zeros + (intToBytestring size).length) : Nat) : Int) size =
      fun state => .ok (((p + (zeros + (intToBytestring size).length + size) : Nat) : Int), state) := by
    funext state
    rw [plusInt, if_pos (by omega)]
    congr 2
    omega
  rw [Unpickler.readLazy, bind_ok read,
    bind_ok (show tell (σ.move _) = .ok (_, σ.move _) from rfl),
    bind_ok (show makeMemo t _ (σ.move _) = .ok (σ.memos.length, _) from rfl), move_position, sum]
  rfl

theorem Setting.readLazy (ctx : Setting root P L T S fuel) (t : Ty) :
    ReadsWell root L T S (.thunk t) (Unpickler.readLazy P fuel t) := by
  intro (v : Val t) p l H σ placed sound
  have encodes := placed.encodes
  obtain ⟨zeros, l', rfl, encodes⟩ := encodes
  have body : Placed root L T S (wire t v) (p + Layout.lead zeros l') l' := by
    refine ⟨parts_trans root ?_ placed.part, encodes, placed.place.body⟩
    exact .tail _ (mem_parts_self _)
  have stands := ctx.stands placed.place
  rw [marked, ← List.append_assoc] at stands
  obtain ⟨grows, sound'⟩ := sound.append (t := t) v body
  have run := readLazy_skips (σ := σ) (size_pos_of_encodes encodes (wire_ne_dummy t v))
    (ctx.short.trans_lt ctx.small) stands (marked_length _ _) (ctx.short.trans_lt ctx.enough) t
  rw [← Layout.lead, ← Layout.size_thunk] at run
  refine ⟨σ.memos.length, _, _, run, rfl, grows, sound'.move (p + (Layout.thunk zeros l').size), ?_⟩
  show Holds _ _ _
  rw [Holds, List.getElem?_append_right (by rw [sound.length]), sound.length, Nat.sub_self]
  rfl

theorem Setting.readBool (ctx : Setting root P L T S fuel) :
    ReadsWell root L T S .bool (Unpickler.readBool P) := by
  intro b p l H σ placed sound
  cases b with
  | false =>
    obtain ⟨stands, size⟩ := ctx.leaf (c := token 'f') placed
    refine yields_of_eq sound ?_ rfl
    rw [Unpickler.readBool, readUnsharableValue, bind_ok (getchar_eq stands), size, readBool',
      if_neg (by decide), if_pos rfl]
    rfl
  | true =>
    obtain ⟨stands, size⟩ := ctx.leaf (c := token 't') placed
    refine yields_of_eq sound ?_ rfl
    rw [Unpickler.readBool, readUnsharableValue, bind_ok (getchar_eq stands), size, readBool',
      if_pos rfl]
    rfl

theorem Setting.read (ctx : Setting root P L T S fuel) (t : Ty) :
    ReadsWell root L T S t (Unpickler.read P fuel t) := by
  have fits : P.length < fuel := ctx.short.trans_lt ctx.enough
  induction t with
  | bool => exact ctx.readBool
  | int =>
    intro i p l H σ placed sound
    obtain ⟨stands, size⟩ := ctx.leaf (c := intToken i.val) placed
    exact yields_of_eq sound (by rw [size]; exact readInt_eq i stands fits) rfl
  | int1 =>
    intro i p l H σ placed sound
    obtain ⟨stands, size⟩ := ctx.leaf (c := intToken i.val) placed
    exact yields_of_eq sound (by rw [size]; exact readInt1_eq i stands fits) rfl
  | unt =>
    intro u p l H σ placed sound
    obtain ⟨stands, size⟩ := ctx.leaf (c := untToken u.val) placed
    exact yields_of_eq sound (by rw [size]; exact readUnt_eq u stands fits) rfl
  | unt1 =>
    intro u p l H σ placed sound
    obtain ⟨stands, size⟩ := ctx.leaf (c := untToken u.val) placed
    exact yields_of_eq sound (by rw [size]; exact readUnt1_eq u stands fits) rfl
  | string => exact ctx.readString
  | list t ih => exact ctx.readList ih
  | nullOr t ih => exact ctx.readNullOr ih
  | pair a b iha ihb => exact ctx.readPair iha ihb
  | thunk t => exact ctx.readLazy t

theorem Sound.set (h : Sound root L T S H σ) {t : Ty} {v : Val t}
    {d : Got t} {i start : Nat} (found : Holds H i ⟨t, v⟩)
    (placed : Placed root L T S (wire t v) start l) (rel : Rel H t v d) :
    Sound root L T S H { σ with memos := σ.memos.set i ⟨t, start, some d⟩ } where
  length := by simp [h.length]
  shared := h.shared
  memo := by
    intro j u x held
    by_cases same : i = j
    · subst same
      cases Option.some.inj (found.symm.trans held)
      refine ⟨start, l, some d, ?_, placed, ?_⟩
      · have lt : i < σ.memos.length := by
          rw [h.length]
          exact (List.getElem?_eq_some_iff.mp found).1
        simp [lt]
      · intro e eq
        rw [← Option.some.inj eq]
        exact rel
    · obtain ⟨start', l', value, memo, placed', rel'⟩ := h.memo j u x held
      exact ⟨start', l', value, by simpa [List.getElem?_set_ne same] using memo, placed', rel'⟩

theorem Setting.force (ctx : Setting root P L T S fuel) {t : Ty} {v : Val t} {i : Nat}
    (held : Holds H i ⟨t, v⟩) (sound : Sound root L T S H σ) :
    ∃ d σ' H', Unpickler.force P fuel i σ = .ok (⟨t, d⟩, σ') ∧ σ'.position = σ.position ∧
      Grows H H' ∧ Sound root L T S H' σ' ∧ Rel H' t v d := by
  obtain ⟨start, l, value, memo, placed, rel⟩ := sound.memo i t v held
  cases value with
  | some d =>
    refine ⟨d, σ, H, ?_, rfl, .refl H, sound, rel d rfl⟩
    rw [Unpickler.force, memo]
  | none =>
    obtain ⟨d, σ', H', run, -, grows, sound', rel'⟩ := ctx.read t v start l H σ placed sound
    have thunk : Unpickler.thunk P fuel t start σ =
        .ok (d, { σ' with position := σ.position }) := by
      rw [Unpickler.thunk, bind_ok (show tell σ = .ok (σ.position, σ) from rfl),
        bind_ok (show Unpickler.seek (start : Int) σ = .ok ((), σ.move start) from rfl), bind_ok run]
      rfl
    refine ⟨d, _, H', ?_, ?_, grows, (sound'.seek σ.position).set (grows _ _ held) placed rel', rel'⟩
    · rw [Unpickler.force, memo]
      simp only [thunk, ok_bind, pure_eq]
    · rfl

end Mythryl.Unpickler

/-! # Sessions with an unpickler -/

namespace Mythryl.Unpickler
open Pickler

def Matches : (t : Ty) → Val t → Got t → Prop
  | .bool, v, d => v = d
  | .int, v, d => v = d
  | .int1, v, d => v = d
  | .unt, v, d => v = d
  | .unt1, v, d => v = d
  | .string, v, d => v = d
  | .list t, v, d => List.Forall₂ (Matches t) v d
  | .nullOr t, v, d => Option.Rel (Matches t) v d
  | .pair a b, v, d => Matches a v.1 d.1 ∧ Matches b v.2 d.2
  | .thunk _, _, _ => True

structure Handle where
  type : Ty
  value : Val type
  memo : Nat

def handles : (t : Ty) → Val t → Got t → List Handle
  | .list t, v, d => (List.zipWith (handles t) v d).flatten
  | .nullOr t, some v, some d => handles t v d
  | .pair a b, v, d => handles a v.1 d.1 ++ handles b v.2 d.2
  | .thunk t, v, d => [⟨t, v, d⟩]
  | _, _, _ => []

def readFromStart (P : Text) (fuel : Nat) (t : Ty) : PickleReader (Got t) := do
  seek 0
  read P fuel t

/-- The states that a session reaches, with each value that was pickled beside what was read. -/
inductive Session (P : Text) (fuel : Nat) (t : Ty) (v : Val t) :
    ReaderState → List ((u : Ty) × Val u × Got u) → Prop
  | start : Session P fuel t v makeUnpickler []
  | read {σ σ' : ReaderState} {known : List ((u : Ty) × Val u × Got u)} {d : Got t} :
      Session P fuel t v σ known → readFromStart P fuel t σ = .ok (d, σ') →
      Session P fuel t v σ' (⟨t, v, d⟩ :: known)
  | force {σ σ' : ReaderState} {known : List ((u : Ty) × Val u × Got u)} {u : Ty} {x : Val u}
      {e : Got u} {h : Handle} {d : Got h.type} :
      Session P fuel t v σ known → ⟨u, x, e⟩ ∈ known → h ∈ handles u x e →
      Unpickler.force P fuel h.memo σ = .ok (⟨h.type, d⟩, σ') →
      Session P fuel t v σ' (⟨h.type, h.value, d⟩ :: known)

variable {H : Heap}

theorem Rel.matches {t : Ty} {v : Val t} {d : Got t} (rel : Rel H t v d) : Matches t v d := by
  induction t with
  | bool => exact rel
  | int => exact rel
  | int1 => exact rel
  | unt => exact rel
  | unt1 => exact rel
  | string => exact rel
  | list t ih => exact List.Forall₂.imp (fun _ _ => ih) rel
  | nullOr t ih =>
    cases rel with
    | none => exact .none
    | some rel => exact .some (ih rel)
  | pair a b iha ihb => exact ⟨iha rel.1, ihb rel.2⟩
  | thunk t => trivial

theorem Rel.handles {t : Ty} {v : Val t} {d : Got t} (rel : Rel H t v d) {h : Handle}
    (mem : h ∈ Unpickler.handles t v d) : Holds H h.memo ⟨h.type, h.value⟩ := by
  induction t with
  | bool => cases mem
  | int => cases mem
  | int1 => cases mem
  | unt => cases mem
  | unt1 => cases mem
  | string => cases mem
  | list t ih =>
    have rel : List.Forall₂ (Rel H t) v d := rel
    rw [Unpickler.handles] at mem
    induction rel with
    | nil => cases mem
    | cons first rest ih' =>
      rw [List.zipWith_cons_cons, List.flatten_cons, List.mem_append] at mem
      exact mem.elim (ih first) (ih' rest)
  | nullOr t ih =>
    cases rel with
    | none => cases mem
    | some rel => exact ih rel mem
  | pair a b iha ihb =>
    cases List.mem_append.mp mem with
    | inl mem => exact iha rel.1 mem
    | inr mem => exact ihb rel.2 mem
  | thunk t =>
    obtain rfl := List.mem_singleton.mp mem
    exact rel

variable {P : Text} {L : Layout} {T : Table} {S : List Nat} {fuel : Nat} {t : Ty} {v : Val t}

theorem Setting.readFromStart (ctx : Setting (wire t v) P L T S fuel) {σ : ReaderState}
    (sound : Sound (wire t v) L T S H σ) :
    Yields (wire t v) L T S H (Unpickler.readFromStart P fuel t σ) P.length v := by
  have placed : Placed (wire t v) L T S (wire t v) 0 L :=
    ⟨mem_parts_self _, ctx.out.encodes, At.root⟩
  have yields := ctx.read t v 0 L H σ placed sound
  rw [Nat.zero_add, ← ctx.out.length_eq] at yields
  exact yields

theorem Session.sound (ctx : Setting (wire t v) P L T S fuel) {σ : ReaderState}
    {known : List ((u : Ty) × Val u × Got u)} (session : Session P fuel t v σ known) :
    ∃ H, Sound (wire t v) L T S H σ ∧ ∀ u x e, ⟨u, x, e⟩ ∈ known → Rel H u x e := by
  induction session with
  | start => exact ⟨[], .start, fun u x e mem => nomatch mem⟩
  | read _ run ih =>
    obtain ⟨H, sound, rels⟩ := ih
    obtain ⟨d, σ', H', run', -, grows, sound', rel⟩ := ctx.readFromStart sound
    obtain ⟨rfl, rfl⟩ := Prod.mk.inj (Except.ok.inj (run.symm.trans run'))
    refine ⟨H', sound', ?_⟩
    intro u x e mem
    cases mem with
    | head => exact rel
    | tail _ mem => exact (rels u x e mem).grow grows
  | force _ known handle run ih =>
    obtain ⟨H, sound, rels⟩ := ih
    obtain ⟨d, σ', H', run', -, grows, sound', rel⟩ :=
      ctx.force ((rels _ _ _ known).handles handle) sound
    obtain ⟨eq, rfl⟩ := Prod.mk.inj (Except.ok.inj (run.symm.trans run'))
    cases eq
    refine ⟨H', sound', ?_⟩
    intro u x e mem
    cases mem with
    | head => exact rel
    | tail _ mem => exact (rels u x e mem).grow grows

def noSharing : Sharing Unit Empty where
  emptyMap := ()
  find _ v := v.elim
  insert m _ _ := m
  find_emptyMap v := v.elim
  find_insert _ v _ := v.elim
  find_insert_ne _ v _ _ _ := v.elim

theorem exists_setting (fits : (wire t v).bound < 2 ^ 30) (agree : ThunksAgree (wire t v))
    (enough : (wire t v).bound < fuel) :
    ∃ P L T S, funtreeToPickle () (wrap t v) = .ok P ∧ Setting (wire t v) P L T S fuel := by
  have agrees := agrees_of_empty (fun v => v.elim) (wire t v)
  have within := within_nodes (wire t v) fun _ mem => mem
  obtain ⟨P, L, T, S, run, short, out⟩ :
      ∃ P L T S, funtreeToPickle noSharing.emptyMap ((wire t v).funtree noSharing) = .ok P ∧
        P.length ≤ (wire t v).bound ∧ LaidOut _ (wire t v) P L T S :=
    funtreeToPickle_total agrees within fits
  rw [wire_funtree] at run
  exact ⟨P, L, T, S, run, out, agree, short, fits, enough⟩

/-- If parts of the value that look the same to sharing have thunks in the same places, then the value
pickles, and in every session reading from the start returns it and ends at the end of the pickle, and
every thunk that was read yields its value and leaves the position alone. -/
theorem pickle_round_trip (t : Ty) (v : Val t) (fuel : Nat) (fits : (wire t v).bound < 2 ^ 30)
    (agree : ThunksAgree (wire t v)) (enough : (wire t v).bound < fuel) :
    ∃ pickle, funtreeToPickle () (wrap t v) = .ok pickle ∧
      ∀ σ known, Session pickle fuel t v σ known →
        (∃ d σ', readFromStart pickle fuel t σ = .ok (d, σ') ∧ Matches t v d ∧
          σ'.position = pickle.length) ∧ ∀ u x e, ⟨u, x, e⟩ ∈ known → Matches u x e ∧
          ∀ h ∈ handles u x e, ∃ d σ', force pickle fuel h.memo σ = .ok (⟨h.type, d⟩, σ') ∧
            Matches h.type h.value d ∧ σ'.position = σ.position := by
  obtain ⟨P, L, T, S, run, ctx⟩ := exists_setting fits agree enough
  refine ⟨P, run, ?_⟩
  intro σ known session
  obtain ⟨H, sound, rels⟩ := session.sound ctx
  constructor
  · obtain ⟨d, σ', H', read, position, -, -, rel⟩ := ctx.readFromStart sound
    exact ⟨d, σ', read, rel.matches, position⟩
  · intro u x e mem
    refine ⟨(rels u x e mem).matches, ?_⟩
    intro h handle
    obtain ⟨d, σ', H', force, position, -, -, rel⟩ :=
      ctx.force ((rels u x e mem).handles handle) sound
    exact ⟨d, σ', force, rel.matches, position⟩

theorem pickle_round_trip_shared_string :
    ∃ pickle, funtreeToPickle () (wrap (.pair .string (.thunk .string)) ([7], [7])) = .ok pickle ∧
      ∀ σ known, Session pickle 50 (.pair .string (.thunk .string)) ([7], [7]) σ known →
        (∃ d σ', readFromStart pickle 50 (.pair .string (.thunk .string)) σ = .ok (d, σ') ∧
          Matches (.pair .string (.thunk .string)) ([7], [7]) d ∧ σ'.position = pickle.length) ∧
        ∀ u x e, ⟨u, x, e⟩ ∈ known → Matches u x e ∧
          ∀ h ∈ handles u x e, ∃ d σ', force pickle 50 h.memo σ = .ok (⟨h.type, d⟩, σ') ∧
            Matches h.type h.value d ∧ σ'.position = σ.position := by
  apply pickle_round_trip (.pair .string (.thunk .string)) ([7], [7]) 50
  · decide
  · intro a ha b hb na nb same
    simp only [wire, parts, partsAll, List.append_nil, List.mem_cons, List.cons_append,
      List.nil_append, List.not_mem_nil, or_false] at ha hb
    have tags : Tag.pair ≠ Tag.string := by decide
    rcases ha with rfl | rfl | rfl | rfl | rfl | rfl <;>
      rcases hb with rfl | rfl | rfl | rfl | rfl | rfl <;>
      first
        | rfl
        | exact na.elim
        | exact nb.elim
        | (simp [Wire.content, Wire.contents, tags, tags.symm] at same)
  · decide

def conflict : Val (.pair (.pair .int .int) (.pair (.thunk .int) .int)) :=
  ((⟨5, by decide⟩, ⟨7, by decide⟩), (⟨5, by decide⟩, ⟨7, by decide⟩))

def fails {V : Type} (e : Failure) : Outcome V → Bool
  | .ok _ => false
  | .error e' => e = e'

theorem fails_iff {V : Type} {e : Failure} {x : Outcome V} : fails e x = true ↔ x = .error e := by
  cases x with
  | ok v => simp [fails]
  | error e' => simp [fails, eq_comm]

theorem conflict_not_read : funtreeToPickle () (wrap (α := Unit) _ conflict) =
        .ok [char 'p', char 'p' + 128, 5, 7, 255, 1] ∧
      readFromStart [char 'p', char 'p' + 128, 5, 7, 255, 1] 100
        (.pair (.pair .int .int) (.pair (.thunk .int) .int)) makeUnpickler = .error .format := by
  have seen : (wrap (α := Unit) _ conflict (startState ())).toOption.map
      (fun r => (r.1, r.2.1, r.2.2.pickleBytesize, r.2.2.sharedValueOffsets.valsList)) =
      some ([0], .node (.leaf [char 'p']) (.node (.node (.leaf [char 'p'])
        (.node (.leaf [5]) (.leaf [7]))) (backref 1)), 6, [1]) ∧
      fails .format (readFromStart [char 'p', char 'p' + 128, 5, 7, 255, 1] 100
        (.pair (.pair .int .int) (.pair (.thunk .int) .int)) makeUnpickler) = true := by
    decide +kernel
  obtain ⟨written, unread⟩ := seen
  refine ⟨?_, fails_iff.mp unread⟩
  cases result : wrap (α := Unit) _ conflict (startState ()) with
  | error e => rw [result] at written; cases written
  | ok r =>
    rw [result] at written
    obtain ⟨_, _, σ'⟩ := r
    obtain ⟨rfl, rfl, size, shared⟩ := by
      simpa only [Except.toOption, Option.map_some, Option.some.injEq, Prod.mk.injEq] using written
    have run := funtreeToPickle_eq result size (by
      intro o mem
      obtain rfl : o = 1 := List.mem_singleton.mp (shared ▸ mem)
      exact ⟨[[char 'p']], [char 'p'], _, rfl, rfl, char 'p', [], rfl, by decide⟩)
    rw [shared] at run
    exact run.trans (congrArg Except.ok (by decide))

end Mythryl.Unpickler
