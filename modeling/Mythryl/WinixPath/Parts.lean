import Mathlib.Data.List.DropRight
import Mythryl.WinixPath

/-! # The parts of a path -/

namespace Mythryl.WinixPath
open LexicalPath

section Generic

variable (p : OspathBase)

@[grind =] def meldArcs : List (List Char) → List (List Char) → List (List Char)
  | [], al2 => al2
  | [[]], al2 => al2
  | a :: al1, al2 => a :: meldArcs al1 al2

attribute [elab_as_elim] meldArcs.induct_unfolding

structure DirAndFile where
  dir : List Char
  file : List Char
  deriving DecidableEq, Repr

/-- The function `split` of `split_path_into_dir_and_file`. -/
def splitArcs : List (List Char) → List (List Char) × List Char
  | [] => ([], [])
  | [f] => ([], f)
  | a :: al =>
      let (d, f) := splitArcs al
      (a :: d, f)

def splitPathIntoDirAndFile (path : List Char) : Except Raised DirAndFile := do
  let ⟨isAbsolute, diskVolume, arcs⟩ := fromString p path
  let (d, f) := splitArcs arcs
  return ⟨← toString p ⟨isAbsolute, diskVolume, d⟩, f⟩

def makePathFromDirAndFile : DirAndFile → Except Raised (List Char)
  | ⟨[], file⟩ => .ok file
  | ⟨dir, file⟩ =>
      let ⟨isAbsolute, diskVolume, arcs⟩ := fromString p dir
      toString p ⟨isAbsolute, diskVolume, meldArcs arcs [file]⟩

structure BaseAndExt where
  base : List Char
  ext : Option (List Char)
  deriving DecidableEq, Repr

def splitOffSuffix (predicate : Char → Bool) (s : List Char) : List Char × List Char :=
  (s.rdropWhile predicate, s.rtakeWhile predicate)

def splitExt (file : List Char) : List Char × Option (List Char) :=
  let (file', ext') := splitOffSuffix (· ≠ '.') file
  if file'.length ≤ 1 ∨ ext' = [] then (file, none) else (file'.dropLast, some ext')

def splitBaseExt (path : List Char) : Except Raised BaseAndExt := do
  let ⟨dir, file⟩ ← splitPathIntoDirAndFile p path
  let (file, ext) := splitExt file
  return ⟨← makePathFromDirAndFile p ⟨dir, file⟩, ext⟩

def joinBaseExt : BaseAndExt → Except Raised (List Char)
  | ⟨base, none⟩ => .ok base
  | ⟨base, some []⟩ => .ok base
  | ⟨base, some ext⟩ => do
      let ⟨dir, file⟩ ← splitPathIntoDirAndFile p base
      makePathFromDirAndFile p ⟨dir, file ++ '.' :: ext⟩

end Generic

theorem parses_fromString (s : List Char) : ∃ rooted arcs, fromString posix s = ⟨rooted, [], arcs⟩ ∧
    Parses rooted arcs ∧ pathOf rooted arcs = s ∧ (arcs = [] → s = []) := by
  cases s with
  | nil => exact ⟨false, [], rfl, ⟨fun _ mem => (List.not_mem_nil mem).elim, fun _ => Option.some_ne_none _ ∘ Eq.symm⟩,
      rfl, fun _ => rfl⟩
  | cons c rest =>
    have joined (s : List Char) : joinArcs posix (s.splitOn '/') = s := by
      rw [joinArcs_eq, List.intercalate_splitOn]
    by_cases root : c = '/'
    · rw [root]
      refine ⟨true, _, fromString_absolute rest, ⟨splitOn_whole rest, Bool.noConfusion⟩,
        congrArg ('/' :: ·) (joined rest), fun none => (List.splitOn_ne_nil _ _ none).elim⟩
    · refine ⟨false, _, fromString_relative root, ⟨splitOn_whole _, fun _ first => ?_⟩, joined _,
        fun none => (List.splitOn_ne_nil _ _ none).elim⟩
      rw [List.splitOn_cons_eq_if_modifyHead, if_neg (by simpa using root)] at first
      cases arcs : rest.splitOn '/' with
      | nil => exact List.splitOn_ne_nil _ _ arcs
      | cons a al =>
        rw [arcs] at first
        cases first

theorem toString_fromString (s : List Char) : toString posix (fromString posix s) = .ok s := by
  obtain ⟨rooted, arcs, parsed, parses, text, -⟩ := parses_fromString s
  rw [parsed, toString_pathOf parses.head, text]

theorem meldArcs_append (d al : List (List Char)) : meldArcs d al = meldArcs d [] ++ al := by
  fun_induction meldArcs d al with
  | case1 => rfl
  | case2 => rfl
  | case3 a al1 al more ih =>
    rw [meldArcs, ih, List.cons_append]
    exact more

theorem meldArcs_initial (d : List (List Char)) : meldArcs d [] <+: d := by
  generalize same : ([] : List (List Char)) = al
  fun_induction meldArcs d al with
  | case1 => exact same ▸ List.nil_prefix
  | case2 => exact same ▸ List.nil_prefix
  | case3 a al1 al more ih => exact List.cons_prefix_cons.mpr ⟨rfl, ih same⟩

theorem follow_meldArcs (rooted : Bool) (d al : List (List Char)) (here : Location (List Char)) :
    follow rooted ((meldArcs d al).map stepOf) here = follow rooted ((d ++ al).map stepOf) here := by
  fun_induction meldArcs d al generalizing here with
  | case1 => rfl
  | case2 => rfl
  | case3 a al1 al more ih => exact ih _

theorem meldArcs_eq_self {d : List (List Char)} : meldArcs d [] = d ↔ d.getLast? ≠ some [] := by
  generalize same : ([] : List (List Char)) = al
  fun_induction meldArcs d al with
  | case1 =>
    rw [← same]
    simp
  | case2 =>
    rw [← same]
    simp
  | case3 a al1 al more ih =>
    cases al1 with
    | nil =>
      rw [← same]
      exact ⟨fun _ last => more (Option.some.inj last) rfl, fun _ => rfl⟩
    | cons b al1 =>
      rw [List.getLast?_cons_cons, ← ih same]
      exact ⟨List.tail_eq_of_cons_eq, congrArg (a :: ·)⟩

structure Splits (s : List Char) (rooted : Bool) (d : List (List Char)) (f : List Char) : Prop where
  text : s = pathOf rooted (d ++ [f])
  dir : Parses rooted d
  file : '/' ∉ f

theorem splitArcs_concat (d : List (List Char)) (f : List Char) : splitArcs (d ++ [f]) = (d, f) := by
  induction d with
  | nil => rfl
  | cons a d ih =>
    rw [List.cons_append, splitArcs, ih]
    simp

section Splits

variable {s f : List Char} {rooted : Bool} {d : List (List Char)}

theorem Splits.fromString (splits : Splits s rooted d f) :
    fromString posix s = ⟨rooted, [], d ++ [f]⟩ ∨
      rooted = false ∧ d = [] ∧ f = [] ∧ fromString posix s = ⟨false, [], []⟩ := by
  rw [splits.text]
  by_cases empty : rooted = false ∧ d = [] ∧ f = []
  · obtain ⟨rfl, rfl, rfl⟩ := empty
    exact .inr ⟨rfl, rfl, rfl, rfl⟩
  · left
    refine fromString_pathOf ⟨fun a mem => ?_, fun relative first => ?_⟩ (by simp)
    · cases List.mem_append.mp mem with
      | inl inside => exact splits.dir.whole a inside
      | inr last => exact List.mem_singleton.mp last ▸ splits.file
    · cases d with
      | nil => exact empty ⟨relative, rfl, Option.some.inj first⟩
      | cons a d => exact splits.dir.head relative first

theorem Splits.isAbsolute (splits : Splits s rooted d f) : isAbsolute posix s = rooted := by
  unfold WinixPath.isAbsolute
  rcases splits.fromString with parsed | ⟨relative, -, -, parsed⟩
  · rw [parsed]
  · rw [parsed, relative]

theorem Splits.locate (splits : Splits s rooted d f) :
    locate s = follow rooted ((d ++ [f]).map stepOf) start := by
  unfold WinixPath.locate
  rcases splits.fromString with parsed | ⟨rfl, rfl, rfl, parsed⟩
  · rw [parsed]
  · rw [parsed]
    rfl

theorem Splits.dropLast (splits : Splits s rooted d f) :
    (WinixPath.fromString posix s).arcs.dropLast = d := by
  rcases splits.fromString with parsed | ⟨-, rfl, -, parsed⟩
  · rw [parsed]
    exact List.dropLast_concat
  · rw [parsed]
    rfl

theorem splits (s : List Char) : ∃ rooted d f, Splits s rooted d f := by
  obtain ⟨rooted, arcs, -, parses, text, empty⟩ := parses_fromString s
  rcases List.eq_nil_or_concat' arcs with none | ⟨d, f, rfl⟩
  · refine ⟨false, [], [], ?_, ⟨by simp, by simp⟩, by simp⟩
    rw [empty none]
    rfl
  · refine ⟨rooted, d, f, text.symm, ⟨fun a mem => ?_, fun relative first => ?_⟩, ?_⟩
    · exact parses.whole a (List.mem_append_left _ mem)
    · apply parses.head relative
      rw [List.head?_append, first]
      rfl
    · exact parses.whole f (List.mem_append_right _ (List.mem_singleton_self f))

theorem Splits.split (splits : Splits s rooted d f) :
    splitPathIntoDirAndFile posix s = .ok ⟨pathOf rooted d, f⟩ := by
  unfold splitPathIntoDirAndFile
  rcases splits.fromString with parsed | ⟨rfl, rfl, rfl, parsed⟩
  · rw [parsed]
    dsimp only
    rw [splitArcs_concat]
    rw [toString_pathOf splits.dir.head]
    rfl
  · rw [parsed]
    rfl

theorem parses_meldArcs (dir : Parses rooted d) : Parses rooted (meldArcs d []) := by
  obtain ⟨rest, whole⟩ := meldArcs_initial d
  refine ⟨fun a mem => dir.whole a ?_, fun relative first => dir.head relative ?_⟩
  · rw [← whole]
    exact List.mem_append_left rest mem
  · rw [← whole, List.head?_append, first]
    rfl

theorem makePath_pathOf (dir : Parses rooted d) (f : List Char) :
    makePathFromDirAndFile posix ⟨pathOf rooted d, f⟩ = .ok (pathOf rooted (meldArcs d [] ++ [f])) := by
  cases d with
  | nil => cases rooted <;> rfl
  | cons a d =>
    have parsed := fromString_pathOf dir (List.cons_ne_nil a d)
    have head : rooted = false → (meldArcs (a :: d) [f]).head? ≠ some [] := by
      intro relative first
      apply dir.head relative
      cases a with
      | nil => rfl
      | cons c a => cases d <;> cases first
    cases path : pathOf rooted (a :: d) with
    | nil =>
      rw [path] at parsed
      cases parsed
    | cons c rest =>
      rw [path] at parsed
      unfold makePathFromDirAndFile
      dsimp only
      rw [parsed]
      rw [toString_pathOf head, meldArcs_append]

theorem Splits.meld (splits : Splits s rooted d f) {f' : List Char} (whole : '/' ∉ f') :
    Splits (pathOf rooted (meldArcs d [] ++ [f'])) rooted (meldArcs d []) f' :=
  ⟨rfl, parses_meldArcs splits.dir, whole⟩

end Splits

/-- The path that is returned denotes what `path` does, and is `path` itself if and only if the arc
before the last arc is not an empty one. -/
def ReturnsTo (result : Except Raised (List Char)) (path : List Char) : Prop :=
  ∃ path', result = .ok path' ∧ isAbsolute posix path' = isAbsolute posix path ∧
    locate path' = locate path ∧
    (path' = path ↔ (fromString posix path).arcs.dropLast.getLast? ≠ some [])

section RoundTrips

variable {s f : List Char} {rooted : Bool} {d : List (List Char)}

theorem returnsTo_of (splits : Splits s rooted d f) {d' : List (List Char)} (parses : Parses rooted d')
    (there : follow rooted ((d' ++ [f]).map stepOf) start = follow rooted ((d ++ [f]).map stepOf) start)
    (same : d' = d ↔ meldArcs d [] = d) {result : Except Raised (List Char)}
    (made : result = .ok (pathOf rooted (d' ++ [f]))) : ReturnsTo result s := by
  have again : Splits (pathOf rooted (d' ++ [f])) rooted d' f := ⟨rfl, parses, splits.file⟩
  refine ⟨_, made, again.isAbsolute.trans splits.isAbsolute.symm, ?_, ?_⟩
  · rw [again.locate, splits.locate, there]
  · rw [splits.dropLast, ← meldArcs_eq_self, ← same]
    constructor
    · intro eq
      rw [← again.dropLast, eq, splits.dropLast]
    · intro eq
      rw [eq, ← splits.text]

theorem returnsTo_meld (splits : Splits s rooted d f) {result : Except Raised (List Char)}
    (made : result = .ok (pathOf rooted (meldArcs d [] ++ [f]))) : ReturnsTo result s := by
  refine returnsTo_of splits (parses_meldArcs splits.dir) ?_ Iff.rfl made
  rw [← meldArcs_append]
  exact follow_meldArcs rooted d [f] start

theorem splitDir_returns (path : List Char) :
    ReturnsTo (splitPathIntoDirAndFile posix path >>= makePathFromDirAndFile posix) path := by
  obtain ⟨rooted, d, f, splits⟩ := splits path
  apply returnsTo_meld splits
  rw [splits.split]
  exact makePath_pathOf splits.dir f

theorem meldArcs_twice (d : List (List Char)) :
    meldArcs (meldArcs d []) [] = d ↔ meldArcs d [] = d := by
  constructor
  · intro twice
    have once := (meldArcs_initial (meldArcs d [])).length_le
    rw [twice] at once
    exact (meldArcs_initial d).eq_of_length_le once
  · intro once
    rw [once, once]

theorem splitExt_whole {file base : List Char} {ext : Option (List Char)}
    (split : splitExt file = (base, ext)) :
    ext = none ∧ base = file ∨ ∃ e, ext = some e ∧ e ≠ [] ∧ file = base ++ '.' :: e := by
  unfold splitExt splitOffSuffix at split
  dsimp only at split
  split at split
  · cases split
    exact .inl ⟨rfl, rfl⟩
  · next long =>
      cases split
      obtain ⟨long, some⟩ := not_or.mp long
      refine .inr ⟨_, rfl, some, ?_⟩
      have kept : file.rdropWhile (· ≠ '.') ≠ [] := fun none => long (by rw [none]; decide)
      have dot := List.rdropWhile_last_not (fun c : Char => decide (c ≠ '.')) file kept
      have dot' : (file.rdropWhile (· ≠ '.')).getLast kept = '.' := by simpa using dot
      have whole := List.dropLast_append_getLast kept
      rw [dot'] at whole
      rw [List.append_cons, whole, List.rdropWhile_append_rtakeWhile]

theorem splitBase_returns (path : List Char) :
    ReturnsTo (splitBaseExt posix path >>= joinBaseExt posix) path := by
  obtain ⟨rooted, d, f, splits⟩ := splits path
  have made := makePath_pathOf splits.dir
  rcases split : splitExt f with ⟨base, ext⟩
  have parts : splitBaseExt posix path =
      .ok ⟨pathOf rooted (meldArcs d [] ++ [base]), ext⟩ := by
    unfold splitBaseExt
    rw [splits.split]
    simp only [bind, Except.bind, split, made]
    rfl
  rw [parts]
  rcases splitExt_whole split with ⟨rfl, rfl⟩ | ⟨e, rfl, some, rfl⟩
  · exact returnsTo_meld splits rfl
  · have dir := parses_meldArcs splits.dir
    have short : '/' ∉ base := fun mem => splits.file (List.mem_append_left _ mem)
    have again := (splits.meld short).split
    have there : follow rooted ((meldArcs (meldArcs d []) [] ++ [base ++ '.' :: e]).map stepOf) start =
        follow rooted ((d ++ [base ++ '.' :: e]).map stepOf) start := by
      rw [← meldArcs_append, follow_meldArcs, ← meldArcs_append, follow_meldArcs]
    refine returnsTo_of splits (parses_meldArcs dir) there (meldArcs_twice d) ?_
    cases e with
    | nil => exact (some rfl).elim
    | cons c e =>
      have joined : joinBaseExt posix ⟨pathOf rooted (meldArcs d [] ++ [base]), .some (c :: e)⟩ =
          makePathFromDirAndFile posix ⟨pathOf rooted (meldArcs d []), base ++ '.' :: c :: e⟩ := by
        unfold joinBaseExt
        simp only [again, bind, Except.bind]
      exact joined.trans (makePath_pathOf dir _)

end RoundTrips

/-- The arcs of a string make up the string again. A path that is split into directory and file, or
into base and extension, comes back unless it has an empty arc before its last one; then what
comes back denotes the same. -/
theorem parts_round_trip (path : List Char) : toString posix (fromString posix path) = .ok path ∧
    ReturnsTo (splitPathIntoDirAndFile posix path >>= makePathFromDirAndFile posix) path ∧
    ReturnsTo (splitBaseExt posix path >>= joinBaseExt posix) path :=
  ⟨toString_fromString path, splitDir_returns path, splitBase_returns path⟩

theorem doubled_separator :
    ¬ (∀ path, (splitBaseExt posix path >>= joinBaseExt posix) = .ok path) ∧
    splitBaseExt posix "a//b.c".toList = .ok ⟨"a/b".toList, some "c".toList⟩ ∧
    joinBaseExt posix ⟨"a/b".toList, some "c".toList⟩ = .ok "a/b.c".toList := by
  refine ⟨fun all => ?_, by rfl, by rfl⟩
  cases all "a//b.c".toList

end Mythryl.WinixPath
