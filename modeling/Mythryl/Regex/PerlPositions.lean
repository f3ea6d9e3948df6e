import Mythryl.Regex.PerlFuel

/-!
# Positions in the Perl engine

The position counts the characters read, and a group lies in the group around it, as long as `$`
does not pass the line end at the end of the text: there the stream moves on and the position does
not.
-/

namespace Mythryl.Regex.PerlEngine
open AbstractRegularExpression Reader RaisingState BacktrackingSearch

variable {X : Type}

def LiesIn (getc : Getc X) (range outer : MatchedRange X) : Prop :=
  ∃ w, Reads getc w outer.matchPosition range.matchPosition ∧
    w.length + range.matchLength ≤ outer.matchLength

mutual

def Inside (getc : Getc X) (parent : Option (MatchedRange X)) : RegexMatchResult X → Prop
  | .regexMatchResult root children =>
      (∀ range ∈ root, ∃ outer ∈ parent, LiesIn getc range outer) ∧ InsideAll getc root children

def InsideAll (getc : Getc X) (parent : Option (MatchedRange X)) : List (RegexMatchResult X) → Prop
  | [] => True
  | tree :: trees => Inside getc parent tree ∧ InsideAll getc parent trees

end

/-- The stream has advanced over as many characters as the match is long, and the groups are nested
in it. -/
def InStep (getc : Getc X) (stream rest : X) (m : RegexMatchResult X) : Prop :=
  ∃ n children, m = .regexMatchResult (some ⟨stream, n⟩) children ∧
    (∃ w, Reads getc w stream rest ∧ w.length = n) ∧ InsideAll getc (some ⟨stream, n⟩) children

def PassesLineEnd (getc : Getc X) (isMultiline : Bool) (c : Call X) : Prop :=
  isMultiline = false ∧ ∃ re rest, c.todo = some (.end' :: re) ∧
    getc c.rest = some ('\n', rest) ∧ getc rest = none

section Inside

variable {getc : Getc X} {parent : Option (MatchedRange X)} {trees trees' : List (RegexMatchResult X)}

theorem insideAll_iff : InsideAll getc parent trees ↔ ∀ tree ∈ trees, Inside getc parent tree := by
  induction trees with
  | nil => simp [InsideAll]
  | cons tree trees ih => simp [InsideAll, ih]

theorem insideAll_append (inside : InsideAll getc parent trees)
    (inside' : InsideAll getc parent trees') : InsideAll getc parent (trees ++ trees') := by
  rw [insideAll_iff] at inside inside' ⊢
  intro tree mem
  exact (List.mem_append.mp mem).elim (inside tree) (inside' tree)

theorem insideAll_reverse (inside : InsideAll getc parent trees) :
    InsideAll getc parent trees.reverse := by
  rw [insideAll_iff] at inside ⊢
  intro tree mem
  exact inside tree (List.mem_reverse.mp mem)

theorem insideAll_longer {start : X} {n n' : Nat} (inside : InsideAll getc (some ⟨start, n⟩) trees)
    (le : n ≤ n') : InsideAll getc (some ⟨start, n'⟩) trees := by
  rw [insideAll_iff] at inside ⊢
  intro tree mem
  have inside := inside tree mem
  cases tree with
  | regexMatchResult root children =>
    refine ⟨fun range held => ?_, inside.2⟩
    obtain ⟨outer, same, w, reads, fits⟩ := inside.1 range held
    cases same
    exact ⟨_, rfl, w, reads, fits.trans le⟩

theorem placed_insideAll :
    Placed fun trees : List (RegexMatchResult X) => ∀ parent, InsideAll getc parent trees where
  nil _ := trivial
  append inside inside' parent := insideAll_append (inside parent) (inside' parent)
  group inside parent := ⟨⟨by simp, inside none⟩, trivial⟩

theorem reads_to_end {w w' : List Char} {s rest : X} (reads : Reads getc w s rest)
    (reads' : Reads getc w' s rest) (ends : getc rest = none) : w = w' := by
  induction w generalizing s w' with
  | nil =>
    cases reads
    cases w' with
    | nil => rfl
    | cons c w' =>
      obtain ⟨m, got, -⟩ := reads'
      rw [ends] at got
      cases got
  | cons c w ih =>
    obtain ⟨m, got, reads⟩ := reads
    cases w' with
    | nil =>
      cases reads'
      rw [ends] at got
      cases got
    | cons c' w' =>
      obtain ⟨m', got', reads'⟩ := reads'
      rw [got] at got'
      cases got'
      rw [ih reads reads']

end Inside

def Advanced (getc : Getc X) (origin : X × Nat) (rest : X) (pos : Nat) : Prop :=
  ∃ w, Reads getc w origin.1 rest ∧ pos = origin.2 + w.length

def base (origin : X × Nat) : ReturnStack X → X × Nat
  | .group _ start pos _ _ => (start, pos)
  | .assign _ _ _ _ _ _ stack => base origin stack
  | .guard _ _ _ _ _ stack => base origin stack
  | .concat _ stack => base origin stack
  | .repeat' _ _ _ _ _ _ _ stack => base origin stack
  | .return' => origin

def Level (getc : Getc X) (origin : X × Nat) (pos : Nat) (found : List (RegexMatchResult X))
    (stack : ReturnStack X) : Prop :=
  InsideAll getc (some ⟨(base origin stack).1, pos - (base origin stack).2⟩) found

def Nest (getc : Getc X) (origin : X × Nat) (pos : Nat) : ReturnStack X → Prop
  | .group _ start pos' siblings stack =>
      Advanced getc (base origin stack) start pos' ∧ pos' ≤ pos ∧
        Level getc origin pos siblings stack ∧ Nest getc origin pos stack
  | .assign _ _ _ _ _ found stack => Level getc origin pos found stack ∧ Nest getc origin pos stack
  | .guard _ _ _ _ found stack => Level getc origin pos found stack ∧ Nest getc origin pos stack
  | .concat _ stack => Nest getc origin pos stack
  | .repeat' _ _ _ _ _ _ found stack =>
      Level getc origin pos found stack ∧ Nest getc origin pos stack
  | .return' => True

structure Along (getc : Getc X) (origin : X × Nat) (c : Call X) : Prop where
  total : Advanced getc origin c.rest c.pos
  open' : Advanced getc (base origin c.stack) c.rest c.pos
  found : Level getc origin c.pos c.found c.stack
  nest : Nest getc origin c.pos c.stack

def Behind (getc : Getc X) (origin : X × Nat) (rest : X) (pos : Nat) : Prop :=
  getc rest = none ∧ ∃ w, Reads getc w origin.1 rest ∧ w.length = pos - origin.2 + 1

section Steps

variable {getc : Getc X} {isMultiline : Bool} {origin : X × Nat} {c d : Call X} {pos : Nat}
  {stack : ReturnStack X}

theorem Advanced.read {rest rest' : X} {w : List Char}
    (advanced : Advanced getc origin rest pos) (reads : Reads getc w rest rest') :
    Advanced getc origin rest' (pos + w.length) := by
  obtain ⟨w', reads', rfl⟩ := advanced
  refine ⟨w' ++ w, reads_append.mpr ⟨rest, reads', reads⟩, ?_⟩
  rw [List.length_append, Nat.add_assoc]

theorem Level.later {pos' : Nat} {found : List (RegexMatchResult X)}
    (level : Level getc origin pos found stack) (le : pos ≤ pos') :
    Level getc origin pos' found stack :=
  insideAll_longer level (Nat.sub_le_sub_right le _)

theorem Nest.later {pos' : Nat} (nest : Nest getc origin pos stack)
    (le : pos ≤ pos') : Nest getc origin pos' stack := by
  induction stack with
  | group re start pos'' siblings stack ih =>
    obtain ⟨advanced, le', level, nest⟩ := nest
    exact ⟨advanced, le'.trans le, level.later le, ih nest⟩
  | assign _ _ _ _ _ _ _ ih | guard _ _ _ _ _ _ ih | repeat' _ _ _ _ _ _ _ _ ih =>
    exact ⟨nest.1.later le, ih nest.2⟩
  | concat _ _ ih => exact ih nest
  | return' => trivial

theorem outer_nest {stack' : ReturnStack X} {re found}
    (outer : stack.outer = some (re, found, stack')) : base origin stack = base origin stack' ∧
      (Nest getc origin pos stack ↔ Level getc origin pos found stack' ∧ Nest getc origin pos stack') := by
  cases stack with
  | assign | guard | repeat' =>
    cases outer
    exact ⟨rfl, Iff.rfl⟩
  | group | concat | return' => cases outer

theorem Along.moves (along : Along getc origin c) (moves : Moves getc isMultiline c d)
    (counts : ¬PassesLineEnd getc isMultiline c) : Along getc origin d := by
  cases moves with
  | fetch | go | concat => exact ⟨along.total, along.open', along.found, along.nest⟩
  | read reads =>
    have le := Nat.le_add_right c.pos
    exact ⟨along.total.read reads, along.open'.read reads, along.found.later (le _),
      along.nest.later (le _)⟩
  | lineEnd single todo got last => exact absurd ⟨single, _, _, todo, got, last⟩ counts
  | skip x =>
    refine ⟨along.total, along.open', ?_, along.nest⟩
    exact insideAll_append (insideAll_reverse (placed_insideAll.one x _)) along.found
  | group x re =>
    exact ⟨along.total, ⟨[], rfl, rfl⟩, trivial, along.open', Nat.le_refl _, along.found, along.nest⟩
  | @enter x re stack outer =>
    obtain ⟨same, nest⟩ := outer_nest outer
    have open' : Advanced getc (base origin stack) c.rest c.pos := by
      rw [same]
      exact along.open'
    exact ⟨along.total, open', trivial, nest.mpr ⟨along.found, along.nest⟩⟩
  | @again x re re' found stack stack' before outer =>
    obtain ⟨same, nest⟩ := outer_nest before
    obtain ⟨same', nest'⟩ := outer_nest outer
    have open' : Advanced getc (base origin stack') c.rest c.pos := by
      rw [same', ← same]
      exact along.open'
    exact ⟨along.total, open', trivial, nest'.mpr (nest.mp along.nest)⟩
  | @popGroup re start pos siblings stack top =>
    obtain ⟨total, open', found, nest⟩ := along
    rw [top] at open' nest
    unfold Level at found
    rw [top] at found
    obtain ⟨⟨w, reads, at'⟩, le, siblings, nest⟩ := nest
    obtain ⟨w', reads', now⟩ := open'
    have advanced : Advanced getc (base origin stack) c.rest c.pos := by
      rw [now]
      exact Advanced.read ⟨w, reads, at'⟩ reads'
    refine ⟨total, advanced, ⟨⟨?_, insideAll_reverse found⟩, siblings⟩, nest⟩
    intro range held
    cases held
    refine ⟨_, rfl, w, reads, ?_⟩
    change w.length + (c.pos - pos) ≤ c.pos - (base origin stack).2
    omega
  | popConcat top =>
    obtain ⟨total, open', found, nest⟩ := along
    unfold Level at found
    rw [top] at open' nest found
    exact ⟨total, open', found, nest⟩
  | @pop re siblings stack outer =>
    obtain ⟨same, nest⟩ := outer_nest outer
    obtain ⟨total, open', found, held⟩ := along
    unfold Level at found
    rw [same] at open' found
    exact ⟨total, open', insideAll_append found (nest.mp held).1, (nest.mp held).2⟩

theorem Behind.moves (behind : Behind getc origin c.rest c.pos) (moves : Moves getc isMultiline c d) :
    Behind getc origin d.rest d.pos := by
  have ends := behind.1
  cases moves with
  | fetch got =>
    rw [ends] at got
    cases got
  | @read todo w lastChar rest reads =>
    cases w with
    | nil =>
      cases reads
      exact behind
    | cons c' w =>
      obtain ⟨m, got, -⟩ := reads
      rw [ends] at got
      cases got
  | lineEnd single todo got last =>
    rw [ends] at got
    cases got
  | _ => exact behind

theorem passes_behind (along : Along getc origin c)
    (passes : PassesLineEnd getc isMultiline c) :
    Yields (step getc isMultiline c)
      (Step.All (fun _ => True) fun _ d => Behind getc origin d.rest d.pos) := by
  obtain ⟨single, re, rest', todo, got, last⟩ := passes
  obtain ⟨w, reads, now⟩ := along.total
  have behind : Behind getc origin rest' c.pos := by
    refine ⟨last, w ++ ['\n'], reads_append.mpr ⟨c.rest, reads, rest', got, rfl⟩, ?_⟩
    rw [List.length_append, now, Nat.add_sub_cancel_left]
    rfl
  simp only [step, stepMatch, todo, got, single, last]
  exact yields_pure behind

theorem Path.inStep {calls : List (Call X × Bool)} {a : Success X}
    (path : Path getc isMultiline c calls a) (fetched : Fetched getc c)
    (along : Along getc origin c) (counts : ∀ call ∈ calls, ¬PassesLineEnd getc isMultiline call.1) :
    Advanced getc origin a.restOfString a.pos ∧
      InsideAll getc (some ⟨origin.1, a.pos - origin.2⟩) a.matchesFound := by
  induction path with
  | give stepped =>
    obtain ⟨-, top, rfl⟩ := step_moves fetched _ _ _ stepped
    have found := along.found
    unfold Level at found
    rw [top] at found
    exact ⟨along.total, insideAll_reverse found⟩
  | next stepped goes _ ih =>
    obtain ⟨moves, fetched⟩ := (step_moves fetched _ _ _ stepped).goes goes
    have here := counts _ (List.mem_cons_self ..)
    exact ih fetched (along.moves moves here) fun call mem => counts call (List.mem_cons_of_mem _ mem)

theorem Path.behind {calls : List (Call X × Bool)} {a : Success X}
    (path : Path getc isMultiline c calls a) (fetched : Fetched getc c)
    (passes : Behind getc origin c.rest c.pos ∨
      Along getc origin c ∧ ∃ call ∈ calls, PassesLineEnd getc isMultiline call.1) :
    Behind getc origin a.restOfString a.pos := by
  induction path with
  | give stepped =>
    obtain ⟨todo, -, rfl⟩ := step_moves fetched _ _ _ stepped
    obtain behind | ⟨-, call, mem, -, re, rest, wants, -⟩ := passes
    · exact behind
    · cases List.mem_singleton.mp mem
      rw [todo] at wants
      cases wants
  | @next c d _ _ _ _ _ _ stepped goes _ ih =>
    obtain ⟨moves, fetched⟩ := (step_moves fetched _ _ _ stepped).goes goes
    apply ih fetched
    obtain behind | ⟨along, call, mem, passes⟩ := passes
    · exact .inl (behind.moves moves)
    · by_cases here : PassesLineEnd getc isMultiline c
      · exact .inl ((passes_behind along here _ _ _ stepped).goes goes)
      · cases mem with
        | head => exact absurd passes here
        | tail _ mem => exact .inr ⟨along.moves moves here, call, mem, passes⟩

end Steps

/-- A scan leaves the stream and the groups in step with its positions exactly when `$` has not
passed the line end that ends the text on the way to the match. -/
theorem in_step_iff {getc : Getc X} {re : CompiledRegularExpression} {fuel pos : Nat}
    {stream rest : X} {last : Buf X} {m : RegexMatchResult X} {references references' : Array String}
    (scanned : outcome (scan getc fuel re pos stream last) references
      = (.ok (some (m, rest)), references')) :
    InStep getc stream rest m ↔ ∀ call ∈ winning getc fuel re pos stream last references,
      ¬PassesLineEnd getc re.multiline call.1 := by
  obtain ⟨a, path, rfl, rfl⟩ := scan_path scanned
  have along : Along getc (stream, pos) (.start re.regexp pos stream last) :=
    ⟨⟨[], rfl, rfl⟩, ⟨[], rfl, rfl⟩, trivial, trivial⟩
  constructor
  · intro inStep call mem passes
    obtain ⟨ends, w, reads, length⟩ := path.behind (.inl rfl) (.inr ⟨along, call, mem, passes⟩)
    obtain ⟨n, children, same, ⟨w', reads', length'⟩, -⟩ := inStep
    cases same
    cases reads_to_end reads reads' ends
    omega
  · intro counts
    obtain ⟨⟨w, reads, now⟩, inside⟩ := path.inStep (.inl rfl) along counts
    refine ⟨_, _, rfl, ⟨w, reads, ?_⟩, inside⟩
    rw [now, Nat.add_sub_cancel_left]

theorem in_step_of_lines :
    InStep (ofString ['a', '\n']) 0 2 (.regexMatchResult (some ⟨0, 2⟩) []) := by
  have scanned : outcome (scan (ofString ['a', '\n']) 9 (multiline (compile (.concat
      [.char 'a', .end']))) 0 0 none) #[] =
      (.ok (some (.regexMatchResult (some ⟨0, 2⟩) [], 2)), #[]) := rfl
  exact (in_step_iff scanned).mpr fun _ _ passes => nomatch passes.1

theorem line_end_uncounted :
    (outcome (scan (ofString ['a', '\n']) 9 (compile (.concat [.char 'a', .end'])) 0 0 none) #[]).1
      = .ok (some (.regexMatchResult (some ⟨0, 1⟩) [], 2)) ∧
    ¬InStep (ofString ['a', '\n']) 0 2 (.regexMatchResult (some ⟨0, 1⟩) []) := by
  refine ⟨rfl, ?_⟩
  intro inStep
  obtain ⟨n, children, same, ⟨w, reads, length⟩, -⟩ := inStep
  cases same
  have all : Reads (ofString ['a', '\n']) ['a', '\n'] 0 2 := reads_ofString ['a', '\n']
  cases reads_to_end all reads rfl
  cases length

end Mythryl.Regex.PerlEngine
