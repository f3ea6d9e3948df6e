import Mythryl.LexicalPath

/-!
# File paths

The generic package `winix_path_g` and its POSIX instance.
-/

namespace Mythryl.WinixPath
open LexicalPath

inductive Raised
  | path
  | fail (message : String)
  deriving DecidableEq, Repr

inductive ArcKind
  | null | parent | current
  | arc (a : List Char)
  deriving DecidableEq, Repr

structure OspathBase where
  ilkify : List Char → ArcKind
  parentArc : List Char
  currentArc : List Char
  splitVolPath : List Char → Bool × List Char × List Char
  joinVolPath : Bool × List Char × List Char → Except Raised (List Char)
  arcSepChar : Char

structure Path where
  isAbsolute : Bool
  diskVolume : List Char
  arcs : List (List Char)
  deriving DecidableEq, Repr

section Generic

variable (p : OspathBase)

def fromString : List Char → Path
  | [] => ⟨false, [], []⟩
  | path =>
      let (isAbsolute, diskVolume, rest) := p.splitVolPath path
      ⟨isAbsolute, diskVolume, rest.splitOn p.arcSepChar⟩

/-- The list `f arcs` of `to_string`, concatenated. -/
@[grind =] def joinArcs : List (List Char) → List Char
  | [] => []
  | [a] => a
  | a :: al => a ++ (p.arcSepChar :: joinArcs al)

def toString : Path → Except Raised (List Char)
  | ⟨false, _, [] :: _⟩ => .error .path
  | ⟨isAbsolute, diskVolume, arcs⟩ => do
      return (← p.joinVolPath (isAbsolute, diskVolume, [])) ++ joinArcs p arcs

def parentAfter : List ArcKind → List ArcKind
  | .arc _ :: r => r
  | l => .parent :: l

@[grind =] def scanArcs : List ArcKind → List (List Char) → List ArcKind
  | [], [] => [.current]
  | l, [] => l.reverse
  | [], [[]] => [.null]
  | l, a :: al =>
      match p.ilkify a with
      | .null => scanArcs l al
      | .current => scanArcs l al
      | .parent => scanArcs (parentAfter l) al
      | a' => scanArcs (a' :: l) al

def scanPath (relPath : List (List Char)) : List ArcKind := scanArcs p [] relPath

def mkArc : ArcKind → Except Raised (List Char)
  | .arc a => .ok a
  | .parent => .ok p.parentArc
  | _ => .error (.fail "make_canonical: impossible")

@[grind =] def filterArcs : Bool → List ArcKind → Except Raised (List (List Char))
  | true, .parent :: r => filterArcs true r
  | true, [] => .ok [[]]
  | true, [.null] => .ok [[]]
  | true, [.current] => .ok [[]]
  | false, [.current] => .ok [p.currentArc]
  | _, al => al.mapM (mkArc p)

def makeCanonical : List Char → Except Raised (List Char)
  | [] => .ok p.currentArc
  | path => do
      let ⟨isAbsolute, diskVolume, arcs⟩ := fromString p path
      let arcs' ← filterArcs p isAbsolute (scanPath p arcs)
      toString p ⟨isAbsolute, diskVolume, arcs'⟩

def isCanonical (path : List Char) : Except Raised Bool := do
  return path == (← makeCanonical p path)

def isAbsolute (path : List Char) : Bool := (fromString p path).isAbsolute

end Generic

def ilkify : List Char → ArcKind
  | [] => .null
  | ['.'] => .current
  | ['.', '.'] => .parent
  | a => .arc a

def splitVolPath : List Char → Bool × List Char × List Char
  | '/' :: rest => (true, [], rest)
  | s => (false, [], s)

def joinVolPath : Bool × List Char × List Char → Except Raised (List Char)
  | (true, [], []) => .ok ['/']
  | (true, [], s) => .ok ('/' :: s)
  | (false, [], s) => .ok s
  | _ => .error .path

def posix : OspathBase where
  ilkify := ilkify
  parentArc := ['.', '.']
  currentArc := ['.']
  splitVolPath := splitVolPath
  joinVolPath := joinVolPath
  arcSepChar := '/'

def stepOf (a : List Char) : Step (List Char) :=
  match ilkify a with
  | .null => .stay
  | .current => .stay
  | .parent => .up
  | .arc a => .down a

def locate (path : List Char) : Location (List Char) :=
  let ⟨isAbsolute, _, arcs⟩ := fromString posix path
  follow isAbsolute (arcs.map stepOf) start

def kinds (location : Location (List Char)) : List ArcKind :=
  location.names.map .arc ++ List.replicate location.ups .parent

variable {location : Location (List Char)} {a path : List Char} {arcs : List (List Char)}
  {rooted : Bool}

theorem kinds_eq_nil : kinds location = [] ↔ location = start := by
  obtain ⟨ups, names⟩ := location
  cases names <;> cases ups <;> simp [kinds, start, List.replicate_succ]

theorem scanArcs_cons {l : List ArcKind} {al : List (List Char)}
    (more : l = [] → a = [] → al ≠ []) :
    scanArcs posix l (a :: al) =
      match ilkify a with
      | .null => scanArcs posix l al
      | .current => scanArcs posix l al
      | .parent => scanArcs posix (parentAfter l) al
      | a' => scanArcs posix (a' :: l) al := by
  rw [scanArcs]
  · rfl
  · exact more

theorem scanArcs_move {here : Location (List Char)} {al : List (List Char)}
    (more : here = start → a = [] → al ≠ []) : scanArcs posix (kinds here) (a :: al) =
      scanArcs posix (kinds (move false here (stepOf a))) al := by
  rw [scanArcs_cons fun none => more (by rwa [kinds_eq_nil] at none)]
  unfold stepOf
  cases ilkify a with
  | null => rfl
  | current => rfl
  | arc name => rfl
  | parent =>
    obtain ⟨ups, names⟩ := here
    cases names with
    | cons name names => rfl
    | nil => cases ups <;> rfl

theorem scanArcs_eq (arcs : List (List Char)) (here : Location (List Char)) :
    scanArcs posix (kinds here) arcs =
      let there := follow false (arcs.map stepOf) here
      if there ≠ start then (kinds there).reverse
      else if arcs.getLast? = some [] then [.null] else [.current] := by
  induction arcs generalizing here with
  | nil =>
    cases stack : kinds here with
    | nil =>
      rw [kinds_eq_nil] at stack
      rw [stack]
      rfl
    | cons kind rest =>
      have away : here ≠ start := fun home => by
        rw [← kinds_eq_nil, stack] at home
        cases home
      simp only [List.map_nil, follow_nil]
      rw [if_pos away, stack]
      rfl
  | cons a al ih =>
    by_cases last : here = start ∧ a = [] ∧ al = []
    · obtain ⟨rfl, rfl, rfl⟩ := last
      rfl
    · rw [scanArcs_move fun home empty none => last ⟨home, empty, none⟩, ih, List.map_cons,
        follow_cons]
      cases al with
      | cons b al => rfl
      | nil =>
        simp only [List.map_nil, follow_nil]
        split
        · rfl
        · next home =>
            have named : ¬ some a = some [] := by
              intro same
              cases same
              exact last ⟨not_not.mp home, rfl, rfl⟩
            exact (if_neg named).symm

structure Name (a : List Char) : Prop where
  ordinary : ilkify a = .arc a
  whole : '/' ∉ a

theorem ilkify_arc {b : List Char} (h : ilkify a = .arc b) : b = a := by
  unfold ilkify at h
  split at h <;> cases h
  rfl

def Named (location : Location (List Char)) : Prop := ∀ a ∈ location.names, Name a

theorem named_follow (whole : ∀ a ∈ arcs, '/' ∉ a)
    {here : Location (List Char)} (named : Named here) :
    Named (follow rooted (arcs.map stepOf) here) := by
  induction arcs generalizing here with
  | nil => exact named
  | cons a arcs ih =>
    apply ih fun b mem => whole b (List.mem_cons_of_mem _ mem)
    have wholeA := whole a (List.mem_cons_self ..)
    unfold stepOf
    cases kind : ilkify a with
    | null => exact named
    | current => exact named
    | arc name =>
      obtain rfl := ilkify_arc kind
      intro b mem
      cases List.mem_cons.mp mem with
      | inl first =>
        rw [first]
        exact ⟨kind, wholeA⟩
      | inr older => exact named b older
    | parent =>
      obtain ⟨ups, names⟩ := here
      cases names with
      | nil =>
        intro b mem
        cases rooted <;> cases mem
      | cons name names => exact fun b mem => named b (List.mem_cons_of_mem _ mem)

def arcOf : Step (List Char) → List Char
  | .stay => ['.']
  | .up => ['.', '.']
  | .down a => a

def canonicalArcs (rooted : Bool) (location : Location (List Char)) : List (List Char) :=
  if location = start then [if rooted then [] else ['.']] else location.steps.map arcOf

def canonicalPath (rooted : Bool) (location : Location (List Char)) : List Char :=
  (if rooted then ['/'] else []) ++ joinArcs posix (canonicalArcs rooted location)

theorem steps_map_arcOf (location : Location (List Char)) : location.steps.map arcOf =
      List.replicate location.ups ['.', '.'] ++ location.names.reverse := by
  have names (l : List (List Char)) : (l.map Step.down).map arcOf = l := by
    rw [List.map_map]
    exact List.map_id l
  rw [Location.steps, List.map_append, List.map_replicate, names]
  rfl

theorem map_stepOf {l : List (List Char)} (named : ∀ a ∈ l, Name a) :
    l.map stepOf = l.map .down := by
  apply List.map_congr_left
  intro a mem
  unfold stepOf
  rw [(named a mem).ordinary]

theorem steps_map_stepOf (named : Named location) :
    (location.steps.map arcOf).map stepOf = location.steps := by
  rw [steps_map_arcOf, List.map_append, List.map_replicate, map_stepOf, Location.steps]
  · rfl
  · exact fun a mem => named a (List.mem_reverse.mp mem)

theorem steps_ne_nil (away : location ≠ start) : location.steps.map arcOf ≠ [] := by
  obtain ⟨ups, names⟩ := location
  rw [steps_map_arcOf]
  intro none
  obtain ⟨noUps, noNames⟩ := List.append_eq_nil_iff.mp none
  cases ups with
  | succ n => cases noUps
  | zero =>
    obtain rfl : names = [] := List.reverse_eq_nil_iff.mp noNames
    exact away rfl

theorem canonicalArcs_mem (named : Named location) (mem : a ∈ canonicalArcs rooted location) :
    '/' ∉ a ∧ (rooted = false → a ≠ []) := by
  unfold canonicalArcs at mem
  split at mem
  · rw [List.mem_singleton.mp mem]
    cases rooted <;> decide
  · rw [steps_map_arcOf] at mem
    cases List.mem_append.mp mem with
    | inl above =>
      rw [(List.mem_replicate.mp above).2]
      exact ⟨by decide, fun _ => List.cons_ne_nil _ _⟩
    | inr below =>
      have name := named a (List.mem_reverse.mp below)
      refine ⟨name.whole, fun _ empty => ?_⟩
      have ordinary := name.ordinary
      rw [empty] at ordinary
      cases ordinary

theorem canonicalArcs_ne_nil (rooted : Bool) (location : Location (List Char)) :
    canonicalArcs rooted location ≠ [] := by
  unfold canonicalArcs
  split
  · exact List.cons_ne_nil _ _
  · next away => exact steps_ne_nil away

theorem joinArcs_eq (arcs : List (List Char)) : joinArcs posix arcs = ['/'].intercalate arcs := by
  fun_induction joinArcs posix arcs with
  | case1 => rfl
  | case2 a => exact List.intercalate_singleton.symm
  | case3 a al more ih =>
    rw [ih, List.intercalate_cons_of_ne_nil more, List.append_assoc]
    rfl

theorem fromString_relative {c : Char} {rest : List Char} (relative : c ≠ '/') :
    fromString posix (c :: rest) = ⟨false, [], (c :: rest).splitOn '/'⟩ := by
  have split : splitVolPath (c :: rest) = (false, [], c :: rest) := by
    unfold splitVolPath
    split
    · next same =>
        cases same
        exact (relative rfl).elim
    · rfl
  change (let (isAbsolute, diskVolume, rest') := splitVolPath (c :: rest)
    (⟨isAbsolute, diskVolume, rest'.splitOn '/'⟩ : Path)) = _
  rw [split]

theorem fromString_absolute (rest : List Char) :
    fromString posix ('/' :: rest) = ⟨true, [], rest.splitOn '/'⟩ := rfl

structure Parses (rooted : Bool) (arcs : List (List Char)) : Prop where
  whole : ∀ a ∈ arcs, '/' ∉ a
  head : rooted = false → arcs.head? ≠ some []

def pathOf (rooted : Bool) (arcs : List (List Char)) : List Char :=
  (if rooted then ['/'] else []) ++ joinArcs posix arcs

theorem fromString_pathOf (parses : Parses rooted arcs)
    (some : arcs ≠ []) : fromString posix (pathOf rooted arcs) = ⟨rooted, [], arcs⟩ := by
  have split : (joinArcs posix arcs).splitOn '/' = arcs := by
    rw [joinArcs_eq]
    exact List.splitOn_intercalate '/' parses.whole some
  cases rooted with
  | true =>
    have path : pathOf true arcs = '/' :: joinArcs posix arcs := rfl
    rw [path, fromString_absolute, split]
  | false =>
    have first : ∃ c rest, joinArcs posix arcs = c :: rest ∧ c ≠ '/' := by
      match arcs with
      | [] => exact (some rfl).elim
      | [] :: al => exact (parses.head rfl rfl).elim
      | (c :: a) :: al =>
        have other : c ≠ '/' := fun same =>
          parses.whole _ (List.mem_cons_self ..) (same ▸ List.mem_cons_self ..)
        cases al with
        | nil => exact ⟨c, a, rfl, other⟩
        | cons b al => exact ⟨c, _, rfl, other⟩
    obtain ⟨c, rest, join, other⟩ := first
    rw [pathOf, if_neg Bool.false_ne_true, List.nil_append]
    rw [join] at split ⊢
    rw [fromString_relative other, split]

theorem toString_pathOf (head : rooted = false → arcs.head? ≠ some []) :
    toString posix ⟨rooted, [], arcs⟩ = .ok (pathOf rooted arcs) := by
  match rooted, arcs with
  | true, _ => rfl
  | false, [] => rfl
  | false, [] :: _ => exact (head rfl rfl).elim
  | false, (_ :: _) :: _ => rfl

theorem parses_canonicalArcs
    (named : Named location) : Parses rooted (canonicalArcs rooted location) where
  whole := fun _ mem => (canonicalArcs_mem named mem).1
  head := fun relative first => (canonicalArcs_mem named (List.mem_of_head? first)).2 relative rfl

theorem fromString_canonicalPath (named : Named location) :
    fromString posix (canonicalPath rooted location) =
      ⟨rooted, [], canonicalArcs rooted location⟩ :=
  fromString_pathOf (parses_canonicalArcs named) (canonicalArcs_ne_nil rooted location)

theorem locate_canonicalPath (named : Named location) (bounded : rooted = true → location.ups = 0) :
    locate (canonicalPath rooted location) = location := by
  unfold locate
  rw [fromString_canonicalPath named]
  change follow rooted ((canonicalArcs rooted location).map stepOf) start = location
  unfold canonicalArcs
  split
  · next home =>
      rw [home]
      cases rooted <;> rfl
  · rw [steps_map_stepOf named, follow_steps bounded]

theorem kinds_reverse (location : Location (List Char)) : (kinds location).reverse =
      List.replicate location.ups .parent ++ location.names.reverse.map .arc := by
  rw [kinds, List.reverse_append, List.reverse_replicate, List.map_reverse]

theorem mapM_mkArc (ups : Nat) (names : List (List Char)) :
    (List.replicate ups ArcKind.parent ++ names.map ArcKind.arc).mapM (mkArc posix) =
      .ok (List.replicate ups ['.', '.'] ++ names) := by
  induction ups with
  | zero =>
    rw [List.replicate_zero, List.nil_append]
    induction names with
    | nil => rfl
    | cons a names ih =>
      rw [List.map_cons, List.mapM_cons, ih]
      rfl
  | succ ups ih =>
    rw [List.replicate_succ, List.cons_append, List.mapM_cons, ih]
    rfl

theorem filterArcs_relative (away : location ≠ start) :
    filterArcs posix false (kinds location).reverse = .ok (canonicalArcs false location) := by
  have all := mapM_mkArc location.ups location.names.reverse
  rw [← kinds_reverse, ← steps_map_arcOf] at all
  rw [canonicalArcs, if_neg away, ← all]
  have other : (kinds location).reverse ≠ [.current] := by
    intro same
    have mem : ArcKind.current ∈ kinds location := by
      rw [← List.mem_reverse, same]
      exact List.mem_cons_self ..
    cases List.mem_append.mp mem with
    | inl name =>
      obtain ⟨a, -, eq⟩ := List.mem_map.mp name
      cases eq
    | inr parent => cases (List.mem_replicate.mp parent).2
  unfold filterArcs
  split <;> first | rfl | contradiction

theorem filterArcs_absolute (ups : Nat) (names : List (List Char)) :
    filterArcs posix true (kinds ⟨ups, names⟩).reverse = .ok (canonicalArcs true ⟨0, names⟩) := by
  have drop (l : List ArcKind) : filterArcs posix true (List.replicate ups .parent ++ l) =
      filterArcs posix true l := by
    induction ups with
    | zero => rfl
    | succ ups ih => exact ih
  rw [kinds_reverse, drop]
  cases order : names.reverse with
  | nil =>
    rw [List.reverse_eq_nil_iff.mp order]
    rfl
  | cons a rest =>
    have away : (⟨0, names⟩ : Location (List Char)) ≠ start := by
      intro home
      cases home
      cases order
    have all := mapM_mkArc 0 (a :: rest)
    have same : filterArcs posix true ((a :: rest).map .arc) =
        ((a :: rest).map .arc).mapM (mkArc posix) := by
      cases rest <;> rfl
    rw [canonicalArcs, if_neg away, steps_map_arcOf, order, same]
    exact all

theorem toString_canonical (named : Named location) :
    toString posix ⟨rooted, [], canonicalArcs rooted location⟩ =
      .ok (canonicalPath rooted location) :=
  toString_pathOf (parses_canonicalArcs named).head

def Blank (path : List Char) : Prop :=
  isAbsolute posix path = false ∧ (fromString posix path).arcs.getLast? = some [] ∧
    locate path = start

theorem splitOn_whole (s : List Char) : ∀ a ∈ s.splitOn '/', '/' ∉ a := by
  induction s with
  | nil =>
    intro a mem
    rw [List.splitOn_nil, List.mem_singleton] at mem
    rw [mem]
    exact List.not_mem_nil
  | cons c s ih =>
    rw [List.splitOn_cons_eq_if_modifyHead]
    split
    · intro a mem
      cases List.mem_cons.mp mem with
      | inl empty =>
        rw [empty]
        exact List.not_mem_nil
      | inr later => exact ih a later
    · next other =>
        cases arcs : s.splitOn '/' with
        | nil => exact (List.splitOn_ne_nil _ _ arcs).elim
        | cons first rest =>
          rw [arcs] at ih
          intro a mem
          cases List.mem_cons.mp mem with
          | inl longer =>
            rw [longer]
            intro sep
            cases List.mem_cons.mp sep with
            | inl same => exact other (beq_iff_eq.mpr same.symm)
            | inr inside => exact ih first (List.mem_cons_self ..) inside
          | inr later => exact ih a (List.mem_cons_of_mem _ later)

theorem fromString_eq (path : List Char) : ∃ rooted arcs,
    fromString posix path = ⟨rooted, [], arcs⟩ ∧ (∀ a ∈ arcs, '/' ∉ a) := by
  cases path with
  | nil => exact ⟨false, [], rfl, fun a mem => by cases mem⟩
  | cons c rest =>
    by_cases root : c = '/'
    · rw [root]
      exact ⟨true, _, fromString_absolute rest, splitOn_whole rest⟩
    · exact ⟨false, _, fromString_relative root, splitOn_whole _⟩

theorem makeCanonical_parsed
    (parsed : fromString posix path = ⟨rooted, [], arcs⟩) :
    makeCanonical posix path = filterArcs posix rooted (scanPath posix arcs) >>= fun arcs' =>
      toString posix ⟨rooted, [], arcs'⟩ := by
  cases path with
  | nil =>
    cases parsed
    rfl
  | cons c rest =>
    change (let ⟨isAbsolute, diskVolume, arcs⟩ := fromString posix (c :: rest)
      filterArcs posix isAbsolute (scanPath posix arcs) >>= fun arcs' =>
        toString posix ⟨isAbsolute, diskVolume, arcs'⟩) = _
    rw [parsed]

theorem makeCanonical_blank (blank : Blank path) :
    makeCanonical posix path = .error (.fail "make_canonical: impossible") := by
  obtain ⟨rooted, arcs, parsed, -⟩ := fromString_eq path
  obtain ⟨relative, last, home⟩ := blank
  unfold isAbsolute at relative
  unfold locate at home
  rw [parsed] at relative last home
  obtain rfl : rooted = false := relative
  have scanned : scanPath posix arcs = [.null] := by
    have all := scanArcs_eq arcs start
    rw [if_neg (not_not.mpr home), if_pos last] at all
    exact all
  rw [makeCanonical_parsed parsed, scanned]
  rfl

theorem named_locate (path : List Char) : Named (locate path) := by
  obtain ⟨rooted, arcs, parsed, whole⟩ := fromString_eq path
  unfold locate
  rw [parsed]
  exact named_follow whole fun a mem => by cases mem

theorem locate_ups (absolute : isAbsolute posix path = true) : (locate path).ups = 0 := by
  obtain ⟨rooted, arcs, parsed, -⟩ := fromString_eq path
  unfold isAbsolute at absolute
  unfold locate
  rw [parsed] at absolute ⊢
  obtain rfl : rooted = true := absolute
  exact congrArg Location.ups (follow_rooted _ start)

theorem makeCanonical_ok (fine : ¬ Blank path) :
    makeCanonical posix path = .ok (canonicalPath (isAbsolute posix path) (locate path)) := by
  obtain ⟨rooted, arcs, parsed, -⟩ := fromString_eq path
  have absolute : isAbsolute posix path = rooted := by
    unfold isAbsolute
    rw [parsed]
  have here : locate path = follow rooted (arcs.map stepOf) start := by
    unfold locate
    rw [parsed]
  have filtered : filterArcs posix rooted (scanPath posix arcs) =
      .ok (canonicalArcs rooted (locate path)) := by
    have all : scanPath posix arcs = _ := scanArcs_eq arcs start
    rw [all]
    cases rooted with
    | true =>
      have names : locate path = ⟨0, (follow false (arcs.map stepOf) start).names⟩ :=
        here.trans (follow_rooted _ start)
      rw [names]
      by_cases home : follow false (arcs.map stepOf) start = start
      · rw [if_neg (not_not.mpr home), home]
        split <;> rfl
      · rw [if_pos home]
        exact filterArcs_absolute _ _
    | false =>
      by_cases home : follow false (arcs.map stepOf) start = start
      · have last : ¬ arcs.getLast? = some [] := by
          intro last
          refine fine ⟨absolute, ?_, here.trans home⟩
          rw [parsed]
          exact last
        rw [if_neg (not_not.mpr home), if_neg last, here, home]
        rfl
      · rw [if_pos home, here]
        exact filterArcs_relative home
  rw [makeCanonical_parsed parsed, filtered, absolute]
  exact toString_canonical (named_locate path)

example : makeCanonical posix "../a/.././b//".toList = .ok "../b".toList := by rfl

theorem isAbsolute_canonicalPath
    (named : Named location) : isAbsolute posix (canonicalPath rooted location) = rooted := by
  unfold isAbsolute
  rw [fromString_canonicalPath named]

theorem not_blank_canonicalPath
    (named : Named location) : ¬ Blank (canonicalPath rooted location) := by
  intro ⟨relative, last, _⟩
  rw [isAbsolute_canonicalPath named] at relative
  rw [fromString_canonicalPath named] at last
  exact (canonicalArcs_mem named (List.mem_of_getLast? last)).2 relative rfl

theorem makeCanonical_canonicalPath
    (named : Named location) (bounded : rooted = true → location.ups = 0) :
    makeCanonical posix (canonicalPath rooted location) = .ok (canonicalPath rooted location) := by
  rw [makeCanonical_ok (not_blank_canonicalPath named), isAbsolute_canonicalPath named,
    locate_canonicalPath named bounded]

theorem joinArcs_last (last : arcs.getLast? = some []) :
    joinArcs posix arcs = [] ∨ (joinArcs posix arcs).getLast? = some '/' := by
  fun_induction joinArcs posix arcs with
  | case1 => exact .inl rfl
  | case2 a =>
    cases last
    exact .inl rfl
  | case3 a al more ih =>
    cases al with
    | nil => exact (more rfl).elim
    | cons b al =>
      right
      cases ih last with
      | inl empty =>
        rw [empty]
        exact List.getLast?_concat
      | inr slash =>
        obtain ⟨s, eq⟩ := List.getLast?_eq_some_iff.mp slash
        rw [eq, ← List.cons_append, ← List.append_assoc]
        exact List.getLast?_concat

theorem splitOn_last {s : List Char} :
    (s.splitOn '/').getLast? = some [] ↔ s = [] ∨ s.getLast? = some '/' := by
  constructor
  · intro last
    have join := joinArcs_last last
    rw [joinArcs_eq, List.intercalate_splitOn] at join
    exact join
  · intro slash
    cases slash with
    | inl empty =>
      rw [empty]
      rfl
    | inr slash =>
      obtain ⟨s, rfl⟩ := List.getLast?_eq_some_iff.mp slash
      rw [List.splitOn_append_cons_self, List.splitOn_nil, List.getLast?_concat]

theorem blank_iff : Blank path ↔
    isAbsolute posix path = false ∧ path.getLast? = some '/' ∧ locate path = start := by
  unfold Blank
  cases path with
  | nil =>
    constructor
    · intro blank
      cases blank.2.1
    · intro blank
      cases blank.2.1
  | cons c rest =>
    by_cases root : c = '/'
    · have absolute : isAbsolute posix (c :: rest) = true := by
        rw [root]
        rfl
      rw [absolute]
      constructor
      · intro blank
        cases blank.1
      · intro blank
        cases blank.1
    · have last : (fromString posix (c :: rest)).arcs.getLast? = some [] ↔
          (c :: rest).getLast? = some '/' := by
        rw [fromString_relative root]
        rw [splitOn_last]
        exact or_iff_right (List.cons_ne_nil c rest)
      rw [last]

/-- What is asked of `make_canonical`: it returns a path that is canonical, as absolute as the given
one, and denotes the same location. -/
def Canonicalizes (path : List Char) : Prop :=
  ∃ c, makeCanonical posix path = .ok c ∧ makeCanonical posix c = .ok c ∧
    isCanonical posix c = .ok true ∧ isAbsolute posix c = isAbsolute posix path ∧
    locate c = locate path

/-- It fails where a relative path ends with a separator and leads back to the current directory. -/
theorem canonicalizes_iff (path : List Char) : Canonicalizes path ↔
      ¬ (isAbsolute posix path = false ∧ path.getLast? = some '/' ∧ locate path = start) := by
  rw [← blank_iff]
  constructor
  · intro canonicalizes blank
    obtain ⟨c, result, -⟩ := canonicalizes
    rw [makeCanonical_blank blank] at result
    cases result
  · intro fine
    have named := named_locate path
    have again := makeCanonical_canonicalPath named fun absolute => locate_ups absolute
    refine ⟨_, makeCanonical_ok fine, again, ?_, isAbsolute_canonicalPath named,
      locate_canonicalPath named fun absolute => locate_ups absolute⟩
    unfold isCanonical
    rw [again]
    exact congrArg Except.ok (beq_self_eq_true _)

theorem current_directory_with_separator :
    ¬ (∀ path, Canonicalizes path) ∧
    makeCanonical posix "./".toList = .error (.fail "make_canonical: impossible") ∧
    makeCanonical posix "a/../".toList = .error (.fail "make_canonical: impossible") := by
  refine ⟨?_, makeCanonical_blank ?_, makeCanonical_blank ?_⟩
  · intro all
    obtain ⟨c, result, -⟩ := all "./".toList
    rw [makeCanonical_blank (blank_iff.mpr (by decide))] at result
    cases result
  · exact blank_iff.mpr (by decide)
  · exact blank_iff.mpr (by decide)

end Mythryl.WinixPath
