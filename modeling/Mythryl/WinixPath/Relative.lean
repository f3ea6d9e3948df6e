import Mythryl.WinixPath

/-! # Relative and absolute paths -/

namespace Mythryl.WinixPath
open LexicalPath

section Generic

variable (p : OspathBase) (sameVol : List Char → List Char → Bool)

def makeAbsolute (path relativeTo : List Char) : Except Raised (List Char) :=
  match fromString p path, fromString p relativeTo with
  | _, ⟨false, _, _⟩ => .error .path
  | ⟨true, _, _⟩, _ => .ok path
  | ⟨_, v1, al1⟩, ⟨_, v2, al2⟩ =>
      let mkCanon (diskVolume : List Char) : Except Raised (List Char) := do
        makeCanonical p (← toString p ⟨true, diskVolume, al2 ++ al1⟩)
      if sameVol v1 v2 then mkCanon v1
      else if v1 = [] then mkCanon v2
      else if v2 = [] then mkCanon v1
      else .error .path

def mkArcs : List (List Char) → List (List Char)
  | [] => [p.currentArc]
  | al => al

def dotDot : List (List Char) → List (List Char) → List (List Char)
  | al, [] => al
  | al, _ :: r => dotDot (p.parentArc :: al) r

def strip : List (List Char) → List (List Char) → List (List Char)
  | l, [] => mkArcs p l
  | [], l => dotDot p [] l
  | x1 :: r1, x2 :: r2 =>
      if x1 = x2 then strip r1 r2 else dotDot p (x1 :: r1) (x2 :: r2)

def makeRelative (path relativeTo : List Char) : Except Raised (List Char) :=
  if isAbsolute p relativeTo then
    if !isAbsolute p path then .ok path
    else do
      let ⟨_, v1, al1⟩ := fromString p path
      let ⟨_, v2, al2⟩ := fromString p (← makeCanonical p relativeTo)
      if !sameVol v1 v2 then throw .path
      else
        match al1, al2 with
        | [[]], [[]] => return p.currentArc
        | [[]], _ => toString p ⟨false, [], dotDot p [] al2⟩
        | _, _ => toString p ⟨false, [], strip p al1 al2⟩
  else .error .path

end Generic

def sameVol (v1 v2 : List Char) : Bool := v1 == v2

theorem dotDot_eq (al l : List (List Char)) :
    dotDot posix al l = List.replicate l.length ['.', '.'] ++ al := by
  induction l generalizing al with
  | nil => rfl
  | cons a l ih =>
    rw [dotDot, ih, List.length_cons, List.replicate_succ', List.append_assoc]
    rfl

theorem follow_names {names : List (List Char)} (named : ∀ a ∈ names, Name a) (here : Location (List Char)) :
    follow true (names.map stepOf) here = ⟨here.ups, names.reverse ++ here.names⟩ := by
  rw [map_stepOf named, follow_down]

theorem follow_dots (n : Nat) (names rest : List (List Char)) (le : names.length ≤ n)
    (root : n = names.length ∨ rest = []) :
    follow true ((List.replicate n ['.', '.']).map stepOf) ⟨0, names ++ rest⟩ = ⟨0, rest⟩ := by
  induction n generalizing names with
  | zero =>
    obtain rfl := List.eq_nil_of_length_eq_zero (Nat.le_zero.mp le)
    rfl
  | succ n ih =>
    cases names with
    | cons a names =>
      exact ih names (Nat.le_of_succ_le_succ le) (root.imp_left Nat.succ.inj)
    | nil =>
      obtain rfl : rest = [] := root.resolve_left (Nat.succ_ne_zero n)
      exact ih [] (Nat.zero_le n) (.inr rfl)

theorem follow_dotDot {al : List (List Char)} (named : ∀ a ∈ al, Name a) (l above : List (List Char)) :
    follow true ((dotDot posix al l).map stepOf) ⟨0, l.reverse ++ above⟩ =
      ⟨0, al.reverse ++ above⟩ := by
  rw [dotDot_eq, List.map_append, follow_append,
    follow_dots _ _ _ (Nat.le_of_eq List.length_reverse) (.inl List.length_reverse.symm),
    follow_names named]

theorem follow_strip {al1 al2 : List (List Char)} (named : ∀ a ∈ al1, Name a)
    (above : List (List Char)) :
    follow true ((strip posix al1 al2).map stepOf) ⟨0, al2.reverse ++ above⟩ =
      ⟨0, al1.reverse ++ above⟩ := by
  fun_induction strip posix al1 al2 generalizing above with
  | case1 l =>
    cases l with
    | nil => rfl
    | cons a l => exact follow_names named _
  | case2 l => exact follow_dotDot named l above
  | case3 r1 x r2 ih =>
    have rest := ih (fun a mem => named a (List.mem_cons_of_mem _ mem)) (x :: above)
    rw [List.reverse_cons, List.reverse_cons, List.append_assoc, List.append_assoc]
    exact rest
  | case4 x1 r1 x2 r2 ne => exact follow_dotDot named _ above

theorem arcs_root (names : List (List Char)) :
    canonicalArcs true ⟨0, names⟩ = if names = [] then [[]] else names.reverse := by
  unfold canonicalArcs
  by_cases home : names = []
  · rw [if_pos home, if_pos (by rw [home]; rfl)]
    rfl
  · rw [if_neg home, if_neg (fun same => home (congrArg Location.names same)), steps_map_arcOf]
    rfl

theorem dotDot_leads {al l : List (List Char)} (whole : ∀ a ∈ al, '/' ∉ a ∧ a ≠ [])
    (some : al ≠ [] ∨ l ≠ []) : dotDot posix al l ≠ [] ∧ Parses false (dotDot posix al l) := by
  have all (a : List Char) (mem : a ∈ dotDot posix al l) : '/' ∉ a ∧ a ≠ [] := by
    rw [dotDot_eq] at mem
    cases List.mem_append.mp mem with
    | inl dots =>
      rw [(List.mem_replicate.mp dots).2]
      decide
    | inr name => exact whole a name
  refine ⟨fun none => ?_, fun a mem => (all a mem).1, fun _ first => ?_⟩
  · rw [dotDot_eq] at none
    obtain ⟨noDots, noNames⟩ := List.append_eq_nil_iff.mp none
    rcases some with more | more
    · exact more noNames
    · exact more (by simpa using noDots)
  · exact (all _ (List.mem_of_head? first)).2 rfl

theorem Name.filled {a : List Char} (name : Name a) : '/' ∉ a ∧ a ≠ [] := by
  refine ⟨name.whole, fun empty => ?_⟩
  have ordinary := name.ordinary
  rw [empty] at ordinary
  cases ordinary

theorem strip_leads {al1 al2 : List (List Char)} (named : ∀ a ∈ al1, Name a) :
    strip posix al1 al2 ≠ [] ∧ Parses false (strip posix al1 al2) := by
  have filled := fun a mem => (named a mem).filled
  fun_induction strip posix al1 al2 with
  | case1 l =>
    cases l with
    | nil => exact ⟨List.cons_ne_nil _ _, by simp [mkArcs, posix], by simp [mkArcs, posix]⟩
    | cons a l =>
      refine ⟨List.cons_ne_nil a l, fun b mem => (filled b mem).1, fun _ first => ?_⟩
      exact (filled _ (List.mem_of_head? first)).2 rfl
  | case2 l more => exact dotDot_leads filled (.inr more)
  | case3 r1 x r2 ih =>
    exact ih (fun a mem => named a (List.mem_cons_of_mem _ mem))
      fun a mem => filled a (List.mem_cons_of_mem _ mem)
  | case4 x1 r1 x2 r2 ne => exact dotDot_leads filled (.inl (List.cons_ne_nil _ _))

theorem reverse_filled {names : List (List Char)} (named : Named ⟨0, names⟩) (some : names ≠ []) :
    ∃ c a l, names.reverse = (c :: a) :: l := by
  cases order : names.reverse with
  | nil => exact (some (List.reverse_eq_nil_iff.mp order)).elim
  | cons first l =>
    have mem : first ∈ names := List.mem_reverse.mp (order ▸ List.mem_cons_self ..)
    cases first with
    | nil => exact ((named _ mem).filled.2 rfl).elim
    | cons c a => exact ⟨c, a, l, rfl⟩

variable {names2 : List (List Char)}

theorem makeRelative_canonical {names1 : List (List Char)} (named1 : Named ⟨0, names1⟩)
    (named2 : Named ⟨0, names2⟩) :
    makeRelative posix sameVol (canonicalPath true ⟨0, names1⟩) (canonicalPath true ⟨0, names2⟩) =
      match canonicalArcs true ⟨0, names1⟩, canonicalArcs true ⟨0, names2⟩ with
      | [[]], [[]] => return posix.currentArc
      | [[]], _ => toString posix ⟨false, [], dotDot posix [] (canonicalArcs true ⟨0, names2⟩)⟩
      | _, _ => toString posix
          ⟨false, [], strip posix (canonicalArcs true ⟨0, names1⟩) (canonicalArcs true ⟨0, names2⟩)⟩ := by
  unfold makeRelative
  rw [isAbsolute_canonicalPath named1, isAbsolute_canonicalPath named2,
    makeCanonical_canonicalPath named2 fun _ => rfl]
  simp only [bind, Except.bind, fromString_canonicalPath named1, fromString_canonicalPath named2,
    if_true, Bool.not_true, Bool.false_eq_true, if_false, sameVol, beq_self_eq_true]

theorem makeRelative_leads {names1 : List (List Char)} (named1 : Named ⟨0, names1⟩)
    (named2 : Named ⟨0, names2⟩) :
    ∃ rel, makeRelative posix sameVol (canonicalPath true ⟨0, names1⟩) (canonicalPath true ⟨0, names2⟩) =
        .ok (pathOf false rel) ∧ rel ≠ [] ∧ Parses false rel ∧
      follow true (rel.map stepOf) ⟨0, names2⟩ = ⟨0, names1⟩ := by
  have ordered : ∀ a ∈ names1.reverse, Name a := fun a mem => named1 a (List.mem_reverse.mp mem)
  rw [makeRelative_canonical named1 named2, arcs_root, arcs_root]
  by_cases root1 : names1 = []
  · rw [if_pos root1, root1]
    by_cases root2 : names2 = []
    · rw [if_pos root2, root2]
      exact ⟨[['.']], rfl, List.cons_ne_nil _ _, ⟨by decide, by decide⟩, rfl⟩
    · have nobody : ∀ a ∈ ([] : List (List Char)), Name a := fun a mem => (List.not_mem_nil mem).elim
      obtain ⟨c, a, l, order⟩ := reverse_filled named2 root2
      have leads := dotDot_leads (fun a mem => (nobody a mem).filled)
        (.inr (List.cons_ne_nil (c :: a) l))
      have there := follow_dotDot nobody ((c :: a) :: l) []
      rw [← order, List.reverse_reverse, List.append_nil, order] at there
      rw [if_neg root2, order]
      exact ⟨_, toString_pathOf leads.2.head, leads.1, leads.2, there⟩
  · obtain ⟨c, a, l, order⟩ := reverse_filled named1 root1
    rw [if_neg root1]
    by_cases root2 : names2 = []
    · rw [if_pos root2, root2]
      have dots : strip posix names1.reverse [[]] = ['.', '.'] :: names1.reverse := by
        rw [order]
        rfl
      have leads : strip posix names1.reverse [[]] ≠ [] ∧ _ := strip_leads ordered
      refine ⟨_, ?_, leads.1, leads.2, ?_⟩
      · rw [← toString_pathOf leads.2.head, order]
      · rw [dots, List.map_cons, follow_cons, follow_names ordered, List.reverse_reverse]
        exact congrArg (Location.mk 0) (List.append_nil names1)
    · have leads : strip posix names1.reverse names2.reverse ≠ [] ∧ _ := strip_leads ordered
      have there : follow true ((strip posix names1.reverse names2.reverse).map stepOf) _ = _ :=
        follow_strip ordered []
      rw [List.reverse_reverse, List.append_nil, List.reverse_reverse, List.append_nil] at there
      rw [if_neg root2]
      refine ⟨_, ?_, leads.1, leads.2, there⟩
      rw [← toString_pathOf leads.2.head, order]

theorem not_blank_absolute {path : List Char} (absolute : isAbsolute posix path = true) :
    ¬ Blank path := by
  intro blank
  cases absolute.symm.trans blank.1

theorem canonicalPath_of_isCanonical {path : List Char} (absolute : isAbsolute posix path = true)
    (canonical : isCanonical posix path = .ok true) :
    ∃ names, Named ⟨0, names⟩ ∧ path = canonicalPath true ⟨0, names⟩ := by
  have named := named_locate path
  have root := locate_ups absolute
  unfold isCanonical at canonical
  rw [makeCanonical_ok (not_blank_absolute absolute), absolute] at canonical
  have same : path = canonicalPath true (locate path) := eq_of_beq (Except.ok.inj canonical)
  rcases there : locate path with ⟨ups, names⟩
  rw [there] at named root same
  obtain rfl : ups = 0 := root
  exact ⟨names, named, same⟩

theorem makeAbsolute_relative {rel : List (List Char)} (named2 : Named ⟨0, names2⟩)
    (some : rel ≠ []) (parses : Parses false rel) :
    makeAbsolute posix sameVol (pathOf false rel) (canonicalPath true ⟨0, names2⟩) =
      .ok (canonicalPath true (follow true (rel.map stepOf) ⟨0, names2⟩)) := by
  have whole2 : ∀ a ∈ canonicalArcs true ⟨0, names2⟩, '/' ∉ a := (parses_canonicalArcs named2).whole
  have both : Parses true (canonicalArcs true ⟨0, names2⟩ ++ rel) := by
    refine ⟨fun a mem => ?_, nofun⟩
    cases List.mem_append.mp mem with
    | inl base => exact whole2 a base
    | inr later => exact parses.whole a later
  have parsed := fromString_pathOf both (List.append_ne_nil_of_right_ne_nil _ some)
  have here : locate (canonicalPath true ⟨0, names2⟩) = _ := locate_canonicalPath named2 fun _ => rfl
  unfold locate at here
  rw [fromString_canonicalPath named2] at here
  have there : locate (pathOf true (canonicalArcs true ⟨0, names2⟩ ++ rel)) =
      follow true (rel.map stepOf) ⟨0, names2⟩ := by
    unfold locate
    rw [parsed]
    dsimp only at here ⊢
    rw [List.map_append, follow_append, here]
  have absolute : isAbsolute posix (pathOf true (canonicalArcs true ⟨0, names2⟩ ++ rel)) = true := by
    unfold isAbsolute
    rw [parsed]
  have canonical := makeCanonical_ok (not_blank_absolute absolute)
  rw [absolute, there] at canonical
  unfold makeAbsolute
  rw [fromString_pathOf parses some, fromString_canonicalPath named2]
  exact canonical

theorem makeAbsolute_makeRelative {p r : List Char} (absoluteP : isAbsolute posix p = true)
    (canonicalP : isCanonical posix p = .ok true) (absoluteR : isAbsolute posix r = true)
    (canonicalR : isCanonical posix r = .ok true) :
    (do makeAbsolute posix sameVol (← makeRelative posix sameVol p r) r) = .ok p := by
  obtain ⟨names1, named1, rfl⟩ := canonicalPath_of_isCanonical absoluteP canonicalP
  obtain ⟨names2, named2, rfl⟩ := canonicalPath_of_isCanonical absoluteR canonicalR
  obtain ⟨rel, relative, some, parses, there⟩ := makeRelative_leads named1 named2
  have back := makeAbsolute_relative named2 some parses
  rw [there] at back
  rw [relative]
  exact back

theorem makeAbsolute_makeRelative_siblings :
    makeRelative posix sameVol "/a/b".toList "/a/c".toList = .ok "../b".toList ∧
    (do
      let relative ← makeRelative posix sameVol "/a/b".toList "/a/c".toList
      makeAbsolute posix sameVol relative "/a/c".toList) = .ok "/a/b".toList :=
  ⟨by rfl, makeAbsolute_makeRelative (by rfl) (by rfl) (by rfl) (by rfl)⟩

end Mythryl.WinixPath
