import Mythryl.Regex.AbstractRegularExpression
import Mythryl.Repetition

/-! # The language that the Perl engine searches for -/

namespace Mythryl.Regex.PerlEngine
open AbstractRegularExpression Reader RaisingState BacktrackingSearch Repetition

variable {X : Type} {getc : Getc X} {isMultiline : Bool}

def Spells (getc : Getc X) (text : List Char) (stream : X) : Prop :=
  ∃ last, Reads getc text stream last ∧ getc last = none

theorem Spells.nil {stream : X} (spells : Spells getc [] stream) : getc stream = none := by
  obtain ⟨last, reads, done⟩ := spells
  cases reads
  exact done

theorem Spells.cons {c : Char} {text : List Char} {stream : X}
    (spells : Spells getc (c :: text) stream) :
    ∃ next, getc stream = some (c, next) ∧ Spells getc text next := by
  obtain ⟨last, ⟨next, get, reads⟩, done⟩ := spells
  exact ⟨next, get, last, reads, done⟩

def Finds (getc : Getc X) (isMultiline : Bool) (re : List AbstractRegularExpression) (pos : Nat)
    (lastChar : Buf X) (rest : X) (found : List (RegexMatchResult X)) (stack : ReturnStack X)
    (Wanted : Success X → Prop) : Prop :=
  Settles .backtrack
    (fun fuel => matchRegex getc isMultiline fuel re pos none lastChar rest found stack) Wanted

def Pops (getc : Getc X) (isMultiline : Bool) (pos : Nat)
    (lastChar : Buf X) (rest : X) (found : List (RegexMatchResult X)) (stack : ReturnStack X)
    (Wanted : Success X → Prop) : Prop :=
  Settles .backtrack
    (fun fuel => popStackAndContinue getc isMultiline fuel pos none lastChar rest found stack) Wanted

def Continues (getc : Getc X) (isMultiline : Bool) (re : List AbstractRegularExpression) (pos : Nat)
    (rest : X) (stack : ReturnStack X) (L : Language Char)
    (K : List Char → List Char → Success X → Prop) (text : List Char) : Prop :=
  ∀ u v, text = u ++ v → u ∈ L → ∀ lastChar rest' found, Reads getc u rest rest' →
    Spells getc v rest' →
      Finds getc isMultiline re (pos + u.length) lastChar rest' found stack (K u v)

def Searches (x : AbstractRegularExpression) (L : Language Char) : Prop :=
  ∀ ⦃X : Type⦄ ⦃getc : Getc X⦄ ⦃isMultiline : Bool⦄ ⦃re : List AbstractRegularExpression⦄
    ⦃pos : Nat⦄ ⦃lastChar : Buf X⦄ ⦃rest : X⦄ ⦃found : List (RegexMatchResult X)⦄
    ⦃stack : ReturnStack X⦄ ⦃K : List Char → List Char → Success X → Prop⦄ ⦃text : List Char⦄,
    Spells getc text rest → Continues getc isMultiline re pos rest stack L K text →
      Finds getc isMultiline (x :: re) pos lastChar rest found stack
        (fun a => Cuts L (fun u v => K u v a) text)

section Continues

variable {re : List AbstractRegularExpression} {pos : Nat} {rest : X} {stack : ReturnStack X}
  {L L' : Language Char} {K : List Char → List Char → Success X → Prop} {text : List Char}

theorem Continues.mono (continues : Continues getc isMultiline re pos rest stack L' K text)
    (le : L ≤ L') : Continues getc isMultiline re pos rest stack L K text :=
  fun u v eq mem => continues u v eq (le mem)

theorem Continues.here (continues : Continues getc isMultiline re pos rest stack L K text)
    (mem : [] ∈ L) (spells : Spells getc text rest) (lastChar : Buf X)
    (found : List (RegexMatchResult X)) :
    Finds getc isMultiline re pos lastChar rest found stack (K [] text) :=
  continues [] text rfl mem lastChar rest found rfl spells

theorem Continues.after
    (continues : Continues getc isMultiline re pos rest stack (L * L') K text) {u v : List Char}
    (eq : text = u ++ v) (mem : u ∈ L) {rest' : X} (reads : Reads getc u rest rest') :
    Continues getc isMultiline re (pos + u.length) rest' stack L'
      (fun u' v' => K (u ++ u') v') v := by
  intro u' v' eq' mem' lastChar rest'' found reads' spells
  have whole : text = (u ++ u') ++ v' := by rw [eq, eq', List.append_assoc]
  have far := continues (u ++ u') v' whole (Language.mem_mul.mpr ⟨u, mem, u', mem', rfl⟩)
    lastChar rest'' found (reads_append.mpr ⟨rest', reads, reads'⟩) spells
  rwa [List.length_append, ← Nat.add_assoc] at far

end Continues

theorem Finds.congr {re : List AbstractRegularExpression} {pos : Nat} {lastChar : Buf X} {rest : X}
    {found : List (RegexMatchResult X)} {stack : ReturnStack X} {Wanted Wanted' : Success X → Prop}
    (finds : Finds getc isMultiline re pos lastChar rest found stack Wanted)
    (same : ∀ a, Wanted a ↔ Wanted' a) :
    Finds getc isMultiline re pos lastChar rest found stack Wanted' :=
  Settles.congr finds same

theorem Finds.pop {pos : Nat} {lastChar : Buf X} {rest : X} {found : List (RegexMatchResult X)}
    {stack : ReturnStack X} {Wanted : Success X → Prop}
    (pops : Pops getc isMultiline pos lastChar rest found stack Wanted) :
    Finds getc isMultiline [] pos lastChar rest found stack Wanted :=
  Settles.step (fun _ => rfl) pops

section Parts

variable {x y : AbstractRegularExpression} {es : List AbstractRegularExpression}
  {L L' : Language Char}

theorem Searches.group (part : Searches x L) : Searches (.group x) L := by
  intro X getc isMultiline re pos lastChar rest found stack K text spells continues
  refine Settles.step (fun _ => rfl) (part spells ?_)
  intro u v eq mem lastChar' rest' found' reads spells'
  exact Finds.pop (Settles.step (fun _ => rfl)
    (continues u v eq mem lastChar' rest' _ reads spells'))

def SearchesAll (es : List AbstractRegularExpression) (L : Language Char) : Prop :=
  ∀ ⦃X : Type⦄ ⦃getc : Getc X⦄ ⦃isMultiline : Bool⦄ ⦃re : List AbstractRegularExpression⦄
    ⦃pos : Nat⦄ ⦃lastChar : Buf X⦄ ⦃rest : X⦄ ⦃found : List (RegexMatchResult X)⦄
    ⦃stack : ReturnStack X⦄ ⦃K : List Char → List Char → Success X → Prop⦄ ⦃text : List Char⦄,
    Spells getc text rest → Continues getc isMultiline re pos rest stack L K text →
      Finds getc isMultiline (es ++ re) pos lastChar rest found stack
        (fun a => Cuts L (fun u v => K u v a) text)

theorem SearchesAll.cons (first : Searches x L) (others : SearchesAll es L') :
    SearchesAll (x :: es) (L * L') := by
  intro X getc isMultiline re pos lastChar rest found stack K text spells continues
  refine Finds.congr (first (K := fun u v a => Cuts L' (fun u' v' => K (u ++ u') v' a) v) spells ?_)
    fun a => (cuts_mul (K := fun u v => K u v a)).symm
  intro u v eq mem lastChar' rest' found' reads spells'
  exact others spells' (continues.after eq mem reads)

theorem SearchesAll.concat (parts : SearchesAll es L) : Searches (.concat es) L := by
  intro X getc isMultiline re pos lastChar rest found stack K text spells continues
  have inner : Continues getc isMultiline [] pos rest (.concat re stack) L K text := by
    intro u v eq mem lastChar' rest' found' reads spells'
    exact Finds.pop (Settles.step (fun _ => rfl)
      (continues u v eq mem lastChar' rest' found' reads spells'))
  have all : Finds getc isMultiline (es ++ []) pos lastChar rest found (.concat re stack)
      (fun a => Cuts L (fun u v => K u v a) text) := parts spells inner
  rw [List.append_nil] at all
  exact Settles.step (fun _ => rfl) all

end Parts

def Skips (x : AbstractRegularExpression) : Prop :=
  ∀ X : Type, ∃ l, emptyAlternative x = (pure l : Search (List (RegexMatchResult X)))

section Repeat

variable {x : AbstractRegularExpression} {L : Language Char} {min : Int} {max : Option Int}

theorem finds_turn (part : Searches x L) {i : Int} {re : List AbstractRegularExpression} {pos : Nat}
    {rest : X} {stack : ReturnStack X} {K : List Char → List Char → Success X → Prop}
    {text : List Char} {found : List (RegexMatchResult X)} (counted : 1 ≤ i)
    (spells : Spells getc text rest)
    (after : ∀ u v, text = u ++ v → u ∈ L → u ≠ [] → ∀ lastChar' rest' found',
      Reads getc u rest rest' → Spells getc v rest' →
        Pops getc isMultiline (pos + u.length) lastChar' rest' found'
          (.repeat' x pos min max (i + 1) re found stack)
          (fun a => Cuts (further L min max (i + 1)) (fun u' v' => K (u ++ u') v' a) v))
    (lastChar : Buf X) :
    Finds getc isMultiline [x] pos lastChar rest [] (.repeat' x pos min max (i + 1) re found stack)
      (fun a => Cuts (proper L * further L min max (i + 1)) (fun u v => K u v a) text) := by
  have turn : Finds getc isMultiline [x] pos lastChar rest []
      (.repeat' x pos min max (i + 1) re found stack)
      (fun a => Cuts L (fun u v => u ≠ [] ∧
        Cuts (further L min max (i + 1)) (fun u' v' => K (u ++ u') v' a) v) text) := by
    refine part (K := fun u v a => u ≠ [] ∧
      Cuts (further L min max (i + 1)) (fun u' v' => K (u ++ u') v' a) v) spells ?_
    intro u v eq mem lastChar' rest' found' reads spells'
    apply Finds.pop
    by_cases empty : u = []
    · -- the position is where the turn began, so that the cut-off gives it up
      have cut : 1 < i + 1 ∧ pos + u.length = pos := by
        rw [empty]
        exact ⟨by linarith, rfl⟩
      refine Settles.fails ?_ ?_
      · intro fuel
        exact if_pos cut
      · exact fun a wanted => wanted.1 empty
    · exact Settles.congr (after u v eq mem empty lastChar' rest' found' reads spells')
        fun a => (and_iff_right empty).symm
  refine turn.congr fun a => ?_
  rw [cuts_mul, cuts_proper]

theorem pops_repeat (part : Searches x L) (ordered : ∀ b ∈ max, min ≤ b) {i : Int}
    {re : List AbstractRegularExpression} {pos pos' : Nat} {lastChar : Buf X} {rest : X}
    {stack : ReturnStack X} {K : List Char → List Char → Success X → Prop} {text : List Char}
    {found found' : List (RegexMatchResult X)} (counted : 1 ≤ i) (fresh : ¬(1 < i ∧ pos = pos'))
    (spells : Spells getc text rest)
    (continues : Continues getc isMultiline re pos rest stack (further L min max i) K text) :
    Pops getc isMultiline pos lastChar rest found (.repeat' x pos' min max i re found' stack)
      (fun a => Cuts (further L min max i) (fun u v => K u v a) text) := by
  induction h : text.length using Nat.strong_induction_on generalizing text i pos pos' lastChar rest K
    found with
  | _ n ih =>
    have turn (goesOn : further L min max i = proper L * further L min max (i + 1) ∨
        further L min max i = 1 + proper L * further L min max (i + 1)) :
        Finds getc isMultiline [x] pos lastChar rest []
          (.repeat' x pos min max (i + 1) re found' stack)
          (fun a => Cuts (proper L * further L min max (i + 1)) (fun u v => K u v a) text) := by
      have more : proper L * further L min max (i + 1) ≤ further L min max i := by
        cases goesOn with
        | inl same => exact same.ge
        | inr same =>
          rw [same]
          exact le_sup_right
      refine finds_turn part counted spells ?_ lastChar
      intro u v eq mem nonempty lastChar' rest' found'' reads spells'
      have shorter : v.length < n := by
        rw [← h, eq, List.length_append]
        exact Nat.lt_add_of_pos_left (List.length_pos_iff.mpr nonempty)
      refine ih v.length shorter (by linarith) ?_ spells'
        ((continues.mono more).after eq ⟨mem, nonempty⟩ reads) rfl
      rintro ⟨_, same⟩
      exact nonempty (List.length_eq_zero_iff.mp (Nat.add_eq_left.mp same))
    have next (search : Nat → Search (Success X)) (branch : ∀ fuel, popStackAndContinue getc
        isMultiline (fuel + 1) pos none lastChar rest found
        (.repeat' x pos' min max i re found' stack) = search fuel) :
        Settles .backtrack search (fun a => Cuts (further L min max i) (fun u v => K u v a) text) →
        Pops getc isMultiline pos lastChar rest found (.repeat' x pos' min max i re found' stack)
          (fun a => Cuts (further L min max i) (fun u v => K u v a) text) := Settles.step branch
    by_cases few : i < min
    · have same := further_needed (L := L) ordered few
      apply next _ fun fuel => (if_neg fresh).trans (if_pos few)
      exact Settles.congr (turn (.inl same)) fun a => by rw [same]
    · have enough : min ≤ i := not_lt.mp few
      by_cases more : less i max = true
      · have same := further_open (L := L) enough (less_iff.mp more)
        apply next _ fun fuel => (if_neg fresh).trans ((if_neg few).trans (if_pos more))
        have here := (continues.mono (L := 1) (by rw [same]; exact le_sup_left)).here
          (Language.nil_mem_one) spells lastChar (found ++ found')
        refine Settles.congr (Settles.orElse (turn (.inr same)) here) fun a => ?_
        rw [same, cuts_add, cuts_one, or_comm]
      · have same := further_done (L := L) enough (mt less_iff.mpr more)
        apply next _ fun fuel => (if_neg fresh).trans ((if_neg few).trans (if_neg more))
        have here := (continues.mono (L := 1) same.ge).here
          (Language.nil_mem_one) spells lastChar (found ++ found')
        refine Settles.congr here fun a => ?_
        rw [same, cuts_one]

theorem Searches.interval (part : Searches x L) (skips : Skips x) (bounds : lesseq min max = true) :
    Searches (.interval x min max) (turns L min max) := by
  have ordered := lesseq_iff.mp bounds
  intro X getc isMultiline re pos lastChar rest found stack K text spells continues
  have tryAtLeastOne (le : L * further L min max 1 ≤ turns L min max) :
      Finds getc isMultiline [x] pos lastChar rest [] (.repeat' x pos min max 1 re found stack)
        (fun a => Cuts (L * further L min max 1) (fun u v => K u v a) text) := by
    refine Finds.congr (part (K := fun u v a =>
      Cuts (further L min max 1) (fun u' v' => K (u ++ u') v' a) v) spells ?_)
      fun a => (cuts_mul (K := fun u v => K u v a)).symm
    intro u v eq mem lastChar' rest' found' reads spells'
    apply Finds.pop
    exact pops_repeat part ordered le_rfl (fun cut => lt_irrefl 1 cut.1) spells'
      ((continues.mono le).after eq mem reads)
  by_cases needed : min > 0
  · have same : turns L min max = L * further L min max 1 := turns_needed (not_le.mpr needed)
    refine Settles.step (fun fuel => (if_pos bounds).trans (if_pos needed)) ?_
    exact Settles.congr (tryAtLeastOne same.ge) fun a => by rw [same]
  · have same : turns L min max = L * further L min max 1 + 1 :=
      turns_skipping (not_lt.mp needed)
    obtain ⟨groups, skipped⟩ := skips X
    have emptyMatch := (continues.mono (L := 1) (by rw [same]; exact le_sup_right)).here
      (Language.nil_mem_one) spells lastChar (groups.reverse ++ found)
    refine Settles.step (fun fuel => (if_pos bounds).trans (if_neg needed)) ?_
    simp only [skipped, pure_bind]
    refine Settles.congr (Settles.orElse (tryAtLeastOne (by rw [same]; exact le_sup_left))
      emptyMatch) fun a => ?_
    rw [same, cuts_add, cuts_one]

end Repeat

variable {es : List AbstractRegularExpression}

theorem skips_alt (parts : ∀ e ∈ es, Skips e) (X : Type) :
    ∃ l, emptyAlternatives es = (pure l : Search (List (RegexMatchResult X))) := by
  induction es with
  | nil => exact ⟨[], by rw [emptyAlternatives]⟩
  | cons e es ih =>
    obtain ⟨first, eq⟩ := parts e List.mem_cons_self X
    obtain ⟨rest, eq'⟩ := ih fun e' mem => parts e' (List.mem_cons_of_mem e mem)
    refine ⟨first ++ rest, ?_⟩
    rw [emptyAlternatives, eq, eq', pure_bind, pure_bind]

theorem skips {e : AbstractRegularExpression} (regular : Regular e) : Skips e := by
  induction regular with
  | group part ih =>
    intro X
    obtain ⟨l, eq⟩ := ih X
    exact ⟨[.regexMatchResult none l], by rw [emptyAlternative, eq, pure_bind]⟩
  | alt parts ih =>
    intro X
    obtain ⟨l, eq⟩ := skips_alt ih X
    exact ⟨l, by rw [emptyAlternative, eq]⟩
  | concat parts ih =>
    intro X
    obtain ⟨l, eq⟩ := skips_alt ih X
    exact ⟨l, by rw [emptyAlternative, eq]⟩
  | interval part bounds ih | option part ih | star part ih | plus part ih =>
    intro X
    obtain ⟨l, eq⟩ := ih X
    exact ⟨l, by rw [emptyAlternative, eq]⟩
  | matchSet set | nonmatchSet set | char c => exact fun X => ⟨[], by rw [emptyAlternative] <;> simp⟩

section Loops

variable {x : AbstractRegularExpression} {L : Language Char} {min : Int} {max : Option Int}

theorem Searches.repeats (part : Searches x L) (skips : Skips x) (bounds : lesseq min max = true)
    (harmless : Harmless L min max) : Searches (.interval x min max) (between L min max) := by
  rw [← turns_eq_between (lesseq_iff.mp bounds) harmless]
  exact part.interval skips bounds

theorem Searches.star (part : Searches x L) (skips : Skips x) :
    Searches (.star x) (KStar.kstar L) := by
  intro X getc isMultiline re pos lastChar rest found stack K text spells continues
  rw [← between_star] at *
  exact Settles.step (fun _ => rfl) (part.repeats skips rfl harmless_star spells continues)

theorem Searches.plus (part : Searches x L) (skips : Skips x) :
    Searches (.plus x) (L * KStar.kstar L) := by
  intro X getc isMultiline re pos lastChar rest found stack K text spells continues
  rw [← between_plus] at *
  exact Settles.step (fun _ => rfl) (part.repeats skips rfl harmless_plus spells continues)

theorem Searches.option (part : Searches x L) (skips : Skips x) : Searches (.option x) (1 + L) := by
  intro X getc isMultiline re pos lastChar rest found stack K text spells continues
  rw [← between_option] at *
  exact Settles.step (fun _ => rfl) (part.repeats skips rfl harmless_option spells continues)

end Loops

def LoopsHarmless (e : AbstractRegularExpression) : Prop :=
  ∀ x min max, Part (.interval x min max) e → Harmless (language x) min max

/-- With enough fuel there is a match exactly if a word of the language is at the head of the text,
and what is matched is such a word. -/
def Decides (e : AbstractRegularExpression) (L : Language Char) : Prop :=
  ∀ ⦃X : Type⦄ ⦃getc : Getc X⦄ ⦃re : CompiledRegularExpression⦄ ⦃stream : X⦄ ⦃text : List Char⦄,
    re.regexp = e → Spells getc text stream →
      ∃ n result, (∀ fuel ≥ n, matchPrefix getc fuel re stream = .ok result) ∧
        (result.isSome = true ↔ ∃ w, w <+: text ∧ w ∈ L) ∧
        ∀ m rest, result = some (m, rest) → ∃ w, w <+: text ∧ w ∈ L ∧ Reads getc w stream rest ∧
          m.root = some ⟨stream, w.length⟩

section Scan

variable {X : Type} {getc : Getc X} {fuel : Nat} {re : CompiledRegularExpression} {stream : X}

theorem matchPrefix_found {found : Success X}
    (run : outcome (matchRegex getc re.multiline fuel [re.regexp] 0 none none stream [] .return')
      (allocRefs re) = (.ok found, allocRefs re)) : matchPrefix getc fuel re stream =
      .ok (some (.regexMatchResult (some ⟨stream, found.pos⟩) found.matchesFound,
        found.restOfString)) := by
  unfold matchPrefix scan exceptBacktrack
  rw [orElse, outcome_tryCatch, outcome_bind, run]
  rfl

theorem matchPrefix_failed
    (run : outcome (matchRegex getc re.multiline fuel [re.regexp] 0 none none stream [] .return')
      (allocRefs re) = (.error .backtrack, allocRefs re)) :
    matchPrefix getc fuel re stream = .ok none := by
  unfold matchPrefix scan exceptBacktrack
  rw [orElse, outcome_tryCatch, outcome_bind, run]
  rfl

end Scan

variable {e x : AbstractRegularExpression}

theorem Searches.decides {L : Language Char} (searches : Searches e L) : Decides e L := by
  intro X getc re stream text regexp spells
  subst regexp
  have finds : Finds getc re.multiline [re.regexp] 0 none stream [] .return'
      (fun a => Cuts L (fun u _ => a.pos = u.length ∧ Reads getc u stream a.restOfString) text) := by
    refine searches spells ?_
    intro u v eq mem lastChar rest found reads _
    apply Finds.pop
    refine Settles.step (fun _ => rfl) (Settles.found ?_)
    exact ⟨Nat.zero_add u.length, reads⟩
  obtain ⟨n, ⟨found, ⟨u, v, eq, mem, length, reads⟩, run⟩ | ⟨none, run⟩⟩ := finds (allocRefs re)
  · refine ⟨n, _, fun fuel enough => matchPrefix_found (run fuel enough), ?_, ?_⟩
    · exact ⟨fun _ => ⟨u, ⟨v, eq.symm⟩, mem⟩, fun _ => rfl⟩
    · rintro m rest ⟨⟩
      exact ⟨u, ⟨v, eq.symm⟩, mem, reads, by rw [← length]; rfl⟩
  · refine ⟨n, _, fun fuel enough => matchPrefix_failed (run fuel enough), ?_, ?_⟩
    · constructor
      · intro some
        cases some
      · rintro ⟨u, ⟨v, eq⟩, mem⟩
        obtain ⟨last, reads, _⟩ := spells
        rw [← eq, reads_append] at reads
        obtain ⟨middle, reads, _⟩ := reads
        exact (none ⟨u.length, .none, .none, middle, []⟩ ⟨u, v, eq.symm, mem, rfl, reads⟩).elim
    · rintro m rest ⟨⟩

section Interval

variable {x : AbstractRegularExpression} {min : Int} {max : Option Int}

end Interval

theorem LoopsHarmless.part (harmless : LoopsHarmless e) (part : Part x e) : LoopsHarmless x :=
  fun y min max inside => harmless y min max (inside.trans part)

theorem LoopsHarmless.before (harmless : LoopsHarmless x)
    (c : Char) : LoopsHarmless (.concat [x, .char c]) := by
  intro y min max inside
  cases inside with
  | concat mem inside =>
    cases mem with
    | head => exact harmless y min max inside
    | tail _ mem =>
      cases mem with
      | head => cases inside
      | tail _ mem => cases mem

end Mythryl.Regex.PerlEngine
