import Mythryl.Runtime

/-!
# Command lines: `src/lib/src/process-commandline.pkg`

The error callback returns nothing, so its calls are left out.
-/

namespace Mythryl.ProcessCommandline

abbrev Text := List Char

variable {X : Type}

inductive OptionArgument (X : Type)
  | none (wrap : Unit → X)
  | required (name : Text) (wrap : Text → X)
  | optional (name : Text) (wrap : Option Text → X)

structure OptionDefinition (X : Type) where
  short : Text
  long : List Text
  arg : OptionArgument X

inductive Policy (X : Type)
  | noNonleadingOptionProcessing
  | freelyIntersperseOptionsAndNonoptions
  | turnNonoptionsIntoOptions (f : Text → X)

inductive OptKind (X : Type)
  | opt (x : X)
  | nonOpt

open OptKind

def breakeq (subs : Text) : Text × Text :=
  (subs.takeWhile (· != '='), subs.dropWhile (· != '='))

variable (options : List (OptionDefinition X))

def longOpt (subs : Text) (rest : List Text) : Outcome (OptKind X × List Text) :=
  let (opt', x) := breakeq subs
  let args : List (OptionArgument X) :=
    (options.filter fun d => d.long.any (opt'.isPrefixOf ·)).map (·.arg)
  match args, rest with
  | _ :: _ :: _, rest' => .ok (nonOpt, rest')
  | [.none a], rest' =>
      if x.isEmpty then .ok (opt (a ()), rest')
      else if ['='].isPrefixOf x then .ok (nonOpt, rest') else throw .fail
  | [.required _ f], [] =>
      if x.isEmpty then .ok (nonOpt, [])
      else if ['='].isPrefixOf x then .ok (opt (f (x.drop 1)), []) else throw .fail
  | [.required _ f], r :: rs =>
      if x.isEmpty then .ok (opt (f r), rs)
      else if ['='].isPrefixOf x then .ok (opt (f (x.drop 1)), r :: rs) else throw .fail
  | [.optional _ f], rest' =>
      if x.isEmpty then .ok (opt (f none), rest')
      else if ['='].isPrefixOf x then .ok (opt (f (some (x.drop 1))), rest') else throw .fail
  | [], rest' => .ok (nonOpt, rest')

def shortOpt (x : Char) (subs : Text) (rest : List Text) : OptKind X × List Text :=
  let ads : List (OptionArgument X) := (options.filter fun d => d.short.contains x).map (·.arg)
  match ads, rest with
  | _ :: _ :: _, rest1 => (nonOpt, rest1)
  | .none a :: _, rest' =>
      if subs.isEmpty then (opt (a ()), rest') else (opt (a ()), ('-' :: subs) :: rest')
  | .required _ f :: _, [] => if subs.isEmpty then (nonOpt, []) else (opt (f subs), [])
  | .required _ f :: _, r :: rs => if subs.isEmpty then (opt (f r), rs) else (opt (f subs), r :: rs)
  | .optional _ f :: _, rest' =>
      if subs.isEmpty then (opt (f none), rest') else (opt (f (some subs)), rest')
  | [], rest' => (nonOpt, rest')

variable (policy : Policy X)

@[grind =] def get : Nat → List Text → List X → List Text → Outcome (List X × List Text)
  | 0, _, _, _ => throw .unfinished
  | _ + 1, [], opts, nonOpts => .ok (opts.reverse, nonOpts.reverse)
  | fuel + 1, arg :: rest, opts, nonOpts =>
      let addOpt : OptKind X × List Text → Outcome (List X × List Text)
        | (opt x, rest) => get fuel rest (x :: opts) nonOpts
        | (nonOpt, rest) => get fuel rest opts (arg :: nonOpts)
      if arg = ['-', '-'] then
        let nonOpts := nonOpts.reverse ++ rest
        match policy with
        | .turnNonoptionsIntoOptions f => .ok (opts.reverse ++ nonOpts.map f, [])
        | _ => .ok (opts.reverse, nonOpts)
      else if ['-', '-'].isPrefixOf arg then do addOpt (← longOpt options (arg.drop 2) rest)
      else if ['-'].isPrefixOf arg then
        match arg[1]? with
        | some x => addOpt (shortOpt options x (arg.drop 2) rest)
        | none => throw .subscript
      else
        match policy with
        | .noNonleadingOptionProcessing => .ok (opts.reverse, nonOpts.reverse ++ arg :: rest)
        | .freelyIntersperseOptionsAndNonoptions => get fuel rest opts (arg :: nonOpts)
        | .turnNonoptionsIntoOptions f => get fuel rest (f arg :: opts) nonOpts

def processCommandline (fuel : Nat) (args : List Text) : Outcome (List X × List Text) :=
  get options policy fuel args [] []

inductive Account (X : Type)
  | option (arg : Text) (values : List X)
  | argument (arg : Text)
  | terminator
  | nonOption (arg : Text)

namespace Account

def text : Account X → Text
  | option arg _ => arg
  | argument arg => arg
  | terminator => ['-', '-']
  | nonOption arg => arg

def values : Account X → List X
  | option _ values => values
  | _ => []

def nonOptions : Account X → List Text
  | nonOption arg => [arg]
  | _ => []

end Account

/-- The letters of an argument with a single dash, read together with the next argument: the
values, and what is left. -/
def cluster : Text → List Text → Option (List X × List Text)
  | [], _ => none
  | x :: subs, rest =>
      match shortOpt options x subs rest with
      | (nonOpt, _) => none
      | (opt v, rest') =>
          if rest' = ('-' :: subs) :: rest then
            if subs.head? = some '-' then none
            else (cluster subs rest).map fun (values, rest'') => (v :: values, rest'')
          else some ([v], rest')

def readOption (arg : Text) (rest : List Text) : Option (List X × List Text) :=
  match arg with
  | '-' :: '-' :: body =>
      match longOpt options body rest with
      | .ok (opt v, rest') => some ([v], rest')
      | _ => none
  | '-' :: letters => cluster options letters rest
  | _ => none

/-- The dash alone, which has no letter, and a cluster that is not an option as a whole although
its first letter is one. -/
def Misread : Text → List Text → Prop
  | ['-'], _ => True
  | '-' :: x :: subs, rest =>
      x ≠ '-' ∧ (shortOpt options x subs rest).1 ≠ nonOpt ∧ cluster options (x :: subs) rest = none
  | _, _ => False

/-- The arguments are accounted for one by one, and none is misread. -/
inductive Accounts : List Text → List (Account X) → Prop
  | nil : Accounts [] []
  | terminator (rest : List Text) :
      Accounts (['-', '-'] :: rest) (.terminator :: rest.map .nonOption)
  | option {arg rest values as} (long : arg ≠ ['-', '-'])
      (read : readOption options arg rest = some (values, rest)) (others : Accounts rest as) :
      Accounts (arg :: rest) (.option arg values :: as)
  | withArgument {arg next rest values as} (long : arg ≠ ['-', '-'])
      (read : readOption options arg (next :: rest) = some (values, rest))
      (others : Accounts rest as) :
      Accounts (arg :: next :: rest) (.option arg values :: .argument next :: as)
  | unreadable {arg rest as} (dash : arg.head? = some '-') (long : arg ≠ ['-', '-'])
      (read : readOption options arg rest = none) (whole : ¬Misread options arg rest)
      (others : Accounts rest as) : Accounts (arg :: rest) (.nonOption arg :: as)
  | trailing {arg rest} (plain : arg.head? ≠ some '-')
      (is : policy = .noNonleadingOptionProcessing) :
      Accounts (arg :: rest) (.nonOption arg :: rest.map .nonOption)
  | interspersed {arg rest as} (plain : arg.head? ≠ some '-')
      (is : policy = .freelyIntersperseOptionsAndNonoptions) (others : Accounts rest as) :
      Accounts (arg :: rest) (.nonOption arg :: as)
  | turned {arg rest f as} (plain : arg.head? ≠ some '-')
      (is : policy = .turnNonoptionsIntoOptions f) (others : Accounts rest as) :
      Accounts (arg :: rest) (.option arg [f arg] :: as)

/-- After a terminator the non-options may be turned into options, behind the others. -/
def finish (terminated : Bool) (opts : List X) (nonOpts : List Text) : List X × List Text :=
  match policy, terminated with
  | .turnNonoptionsIntoOptions f, true => (opts ++ nonOpts.map f, [])
  | _, _ => (opts, nonOpts)

/-- The options and the non-options, each in the order of the arguments. -/
def result (as : List (Account X)) : List X × List Text :=
  finish policy (as.any (· matches .terminator)) (as.flatMap Account.values)
    (as.flatMap Account.nonOptions)

variable {options policy} {x : Char} {subs arg : Text} {rest rest' : List Text} {values : List X}

theorem shortOpt_nonOpt (failed : (shortOpt options x subs rest).1 = nonOpt) :
    shortOpt options x subs rest = (nonOpt, rest) := by
  unfold shortOpt at *
  dsimp only at *
  split at failed
  all_goals
    try split at failed
  all_goals simp_all

variable (options) in
/-- No case is impossible: what `breakeq` leaves is empty or starts at the sign. -/
theorem longOpt_cases (subs : Text) (rest : List Text) :
    longOpt options subs rest = .ok (nonOpt, rest) ∨
      ∃ v rest', longOpt options subs rest = .ok (opt v, rest') := by
  have sign : (breakeq subs).2.isEmpty = true ∨ ['='].isPrefixOf (breakeq subs).2 = true := by
    rw [breakeq]
    rcases eq : subs.dropWhile (· != '=') with _ | ⟨c, tail⟩
    · exact .inl rfl
    · have head := List.head?_dropWhile_not (· != '=') subs
      simp_all
  unfold longOpt
  dsimp only
  split
  all_goals
    try split
  all_goals
    try split
  all_goals simp_all

theorem get_cluster {letters : Text} (single : letters.head? ≠ some '-')
    (read : cluster options letters rest = some (values, rest')) : ∃ k, ∀ fuel opts nonOpts,
      get options policy (fuel + k) (('-' :: letters) :: rest) opts nonOpts =
        get options policy fuel rest' (values.reverse ++ opts) nonOpts := by
  induction letters generalizing values with
  | nil => cases read
  | cons x subs ih =>
    have other : x ≠ '-' := by simpa using single
    have step (fuel : Nat) (opts : List X) (nonOpts : List Text) {v : X} {left : List Text}
        (eq : shortOpt options x subs rest = (opt v, left)) :
        get options policy (fuel + 1) (('-' :: x :: subs) :: rest) opts nonOpts =
          get options policy fuel left (v :: opts) nonOpts := by
      simp [get, other, other.symm, eq]
    rw [cluster] at read
    split at read
    · cases read
    · next v left eq =>
      split at read
      · next pushed =>
        split at read
        · cases read
        · next plain =>
          obtain ⟨⟨values, rest''⟩, rec, ⟨⟩⟩ := Option.map_eq_some_iff.mp read
          obtain ⟨k, run⟩ := ih plain rec
          refine ⟨k + 1, fun fuel opts nonOpts => ?_⟩
          rw [← add_assoc, step _ _ _ eq, pushed, run]
          simp
      · cases read
        exact ⟨1, fun fuel opts nonOpts => step _ _ _ eq⟩

variable (policy) in
theorem get_option (long : arg ≠ ['-', '-'])
    (read : readOption options arg rest = some (values, rest')) : ∃ k, ∀ fuel opts nonOpts,
      get options policy (fuel + k) (arg :: rest) opts nonOpts =
        get options policy fuel rest' (values.reverse ++ opts) nonOpts := by
  unfold readOption at read
  split at read
  · next body =>
    split at read
    · next v left eq =>
      cases read
      refine ⟨1, fun fuel opts nonOpts => ?_⟩
      simp [get, long, eq]
    · cases read
  · next letters other =>
    refine get_cluster (fun dash => ?_) read
    obtain ⟨tail, eq⟩ := List.head?_eq_some_iff.mp dash
    exact other tail (by rw [eq])
  · cases read

theorem get_unreadable (dash : arg.head? = some '-') (long : arg ≠ ['-', '-'])
    (read : readOption options arg rest = none) (whole : ¬Misread options arg rest)
    (fuel : Nat) (opts : List X) (nonOpts : List Text) :
    get options policy (fuel + 1) (arg :: rest) opts nonOpts =
      get options policy fuel rest opts (arg :: nonOpts) := by
  obtain ⟨letters, rfl⟩ := List.head?_eq_some_iff.mp dash
  rcases letters with _ | ⟨x, subs⟩
  · exact (whole trivial).elim
  by_cases other : x = '-'
  · subst other
    rcases longOpt_cases options subs rest with eq | ⟨v, left, eq⟩
    · simp [get, long, eq]
    · simp [readOption, eq] at read
  · have none : cluster options (x :: subs) rest = none := by
      simpa [readOption, other] using read
    have failed : (shortOpt options x subs rest).1 = nonOpt := by
      by_contra readable
      exact whole ⟨other, readable, none⟩
    simp [get, other, Ne.symm other, shortOpt_nonOpt failed]

theorem get_plain (plain : arg.head? ≠ some '-') (fuel : Nat) (opts : List X)
    (nonOpts : List Text) : get options policy (fuel + 1) (arg :: rest) opts nonOpts =
      match policy with
      | .noNonleadingOptionProcessing => .ok (opts.reverse, nonOpts.reverse ++ arg :: rest)
      | .freelyIntersperseOptionsAndNonoptions =>
          get options policy fuel rest opts (arg :: nonOpts)
      | .turnNonoptionsIntoOptions f => get options policy fuel rest (f arg :: opts) nonOpts := by
  rcases arg with _ | ⟨c, cs⟩
  · rfl
  · have other : c ≠ '-' := by simpa using plain
    simp [get, other, other.symm]

theorem get_accounts {args : List Text} {as : List (Account X)}
    (accounts : Accounts options policy args as) : ∃ k, ∀ fuel opts nonOpts,
      get options policy (fuel + k) args opts nonOpts =
        .ok (finish policy (as.any (· matches .terminator))
          (opts.reverse ++ as.flatMap Account.values)
          (nonOpts.reverse ++ as.flatMap Account.nonOptions)) := by
  have late (rest : List Text) : (rest.map .nonOption : List (Account X)).flatMap Account.nonOptions =
      rest := by
    rw [List.flatMap_map]
    exact List.flatMap_singleton' rest
  have none (rest : List Text) :
      (rest.map .nonOption : List (Account X)).flatMap Account.values = [] := by
    simp [List.flatMap_map, Account.values]
  induction accounts with
  | nil =>
    refine ⟨1, fun fuel opts nonOpts => ?_⟩
    simp [get, finish]
  | terminator rest =>
    refine ⟨1, fun fuel opts nonOpts => ?_⟩
    rw [List.flatMap_cons, List.flatMap_cons, late, none]
    cases policy <;> simp [get, finish, Account.values, Account.nonOptions]
  | option long read others ih =>
    obtain ⟨k, run⟩ := get_option policy long read
    obtain ⟨k', runs⟩ := ih
    refine ⟨k' + k, fun fuel opts nonOpts => ?_⟩
    rw [← add_assoc, run, runs]
    simp [Account.values, Account.nonOptions]
  | withArgument long read others ih =>
    obtain ⟨k, run⟩ := get_option policy long read
    obtain ⟨k', runs⟩ := ih
    refine ⟨k' + k, fun fuel opts nonOpts => ?_⟩
    rw [← add_assoc, run, runs]
    simp [Account.values, Account.nonOptions]
  | unreadable dash long read whole others ih =>
    obtain ⟨k', runs⟩ := ih
    refine ⟨k' + 1, fun fuel opts nonOpts => ?_⟩
    rw [← add_assoc, get_unreadable dash long read whole, runs]
    simp [Account.values, Account.nonOptions]
  | @trailing arg rest plain is =>
    refine ⟨1, fun fuel opts nonOpts => ?_⟩
    subst is
    rw [get_plain plain, List.flatMap_cons, List.flatMap_cons, late, none]
    simp [finish, Account.values, Account.nonOptions]
  | interspersed plain is others ih =>
    obtain ⟨k', runs⟩ := ih
    refine ⟨k' + 1, fun fuel opts nonOpts => ?_⟩
    subst is
    rw [← add_assoc, get_plain plain]
    simp [runs, Account.values, Account.nonOptions]
  | turned plain is others ih =>
    obtain ⟨k', runs⟩ := ih
    refine ⟨k' + 1, fun fuel opts nonOpts => ?_⟩
    subst is
    rw [← add_assoc, get_plain plain]
    simp [runs, Account.values, Account.nonOptions]

theorem cluster_rest {letters : Text} (read : cluster options letters rest = some (values, rest')) :
    rest' = rest ∨ ∃ next, rest = next :: rest' := by
  induction letters generalizing values with
  | nil => cases read
  | cons x subs ih =>
    rw [cluster] at read
    split at read
    · cases read
    · next v left eq =>
      split at read
      · split at read
        · cases read
        · obtain ⟨_, rec, ⟨⟩⟩ := Option.map_eq_some_iff.mp read
          exact ih rec
      · unfold shortOpt at eq
        dsimp only at eq
        split at eq
        all_goals
          try split at eq
        all_goals simp_all

theorem readOption_rest (read : readOption options arg rest = some (values, rest')) :
    rest' = rest ∨ ∃ next, rest = next :: rest' := by
  unfold readOption at read
  split at read
  · unfold longOpt at read
    dsimp only at read
    split at read
    · next eq =>
      repeat' split at eq
      all_goals simp_all
    · cases read
  · exact cluster_rest read
  · cases read

/-- Accounts are missing only where an argument is misread. -/
theorem exists_accounts {args : List Text}
    (whole : ∀ arg rest, arg :: rest <:+ args → ¬Misread options arg rest) :
    ∃ as, Accounts options policy args as := by
  induction len : args.length using Nat.strong_induction_on generalizing args with
  | _ n ih =>
    rcases args with _ | ⟨arg, rest⟩
    · exact ⟨_, .nil⟩
    have later {others : List Text} (suffix : others <:+ rest) :
        ∃ as, Accounts options policy others as :=
      ih _ (by have := suffix.length_le; simp at len; omega)
        (fun arg rest more => whole arg rest (more.trans (suffix.trans (List.suffix_cons ..)))) rfl
    obtain ⟨as, others⟩ := later (List.suffix_refl rest)
    by_cases long : arg = ['-', '-']
    · subst long
      exact ⟨_, .terminator rest⟩
    by_cases dash : arg.head? = some '-'
    · rcases read : readOption options arg rest with _ | ⟨values, rest'⟩
      · exact ⟨_, .unreadable dash long read (whole arg rest (List.suffix_refl _)) others⟩
      · rcases readOption_rest read with rfl | ⟨next, rfl⟩
        · exact ⟨_, .option long read others⟩
        · obtain ⟨as, others⟩ := later (List.suffix_cons next rest')
          exact ⟨_, .withArgument long read others⟩
    · cases is : policy with
      | noNonleadingOptionProcessing => exact ⟨_, .trailing dash rfl⟩
      | freelyIntersperseOptionsAndNonoptions => exact ⟨_, .interspersed dash rfl (is ▸ others)⟩
      | turnNonoptionsIntoOptions f => exact ⟨_, .turned dash rfl (is ▸ others)⟩

/-- Unless an argument is misread, every one is accounted for once, and the result is that of the
accounts. -/
theorem processCommandline_accounts {args : List Text} {as : List (Account X)}
    (accounts : Accounts options policy args as) : as.map Account.text = args ∧
      ∃ bound, ∀ fuel, bound ≤ fuel →
        processCommandline options policy fuel args = .ok (result policy as) := by
  constructor
  · induction accounts
    all_goals simp_all [Account.text, Function.comp_def]
  · obtain ⟨k, run⟩ := get_accounts accounts
    refine ⟨k, fun fuel enough => ?_⟩
    obtain ⟨fuel, rfl⟩ := Nat.exists_eq_add_of_le' enough
    exact run fuel [] []

/-- The option `-v`, and a file name behind a terminator. -/
theorem processCommandline_accounts_terminated : ∃ bound, ∀ fuel, bound ≤ fuel →
      processCommandline [⟨['v'], [], .none fun _ => true⟩] .noNonleadingOptionProcessing fuel
        [['-', 'v'], ['-', '-'], ['f']] = .ok ([true], [['f']]) := by
  have accounts : Accounts [⟨['v'], [], .none fun _ => true⟩] .noNonleadingOptionProcessing
      [['-', 'v'], ['-', '-'], ['f']]
      [.option ['-', 'v'] [true], .terminator, .nonOption ['f']] :=
    .option (by decide) rfl (.terminator [['f']])
  exact (processCommandline_accounts accounts).2

/-- A dash alone raises an exception, and the rest of a cluster is accounted for once more. -/
theorem dash_raises : (∀ fuel, processCommandline ([] : List (OptionDefinition Bool))
      .freelyIntersperseOptionsAndNonoptions (fuel + 1) [['-']] = .error .subscript) ∧
    processCommandline [⟨['a'], [], .none fun _ => true⟩] .freelyIntersperseOptionsAndNonoptions 3
      [['-', 'a', 'b']] = .ok ([true], [['-', 'b']]) :=
  ⟨fun _ => rfl, rfl⟩

end Mythryl.ProcessCommandline
