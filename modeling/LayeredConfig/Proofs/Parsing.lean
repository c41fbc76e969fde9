import LayeredConfig.Proofs.Grammar

/-!
# LayeredConfig — reading by the grammar

The reader of patterns knows no rules, only where it is and which groups are open. It
accepts what the grammar derives nevertheless, and what it makes of a text has the
paths that the derivation denotes, although words are joined and groups of one branch
dissolve.

* The tokens of a derivation take the reader from where its symbol may stand to behind
  it, and the paths of what has been read are multiplied by those of the derivation
  (`Pattern.Derivation.taken`, by induction on the derivation).
* What the reader has taken always begins a derivation that leads to where it is
  (`Pattern.Reader.derives_step`, for one token), so where it may finish there is one.

Main results:

* `Pattern.Reader.step_eq_ok`      — what a step can do.
* `Pattern.Reader.invariant_run?`  — what each step keeps holds in the end.
* `Pattern.parse_iff_derivation`   — patterns are what the grammar derives.
-/

namespace LayeredConfig

namespace Pattern

open PatternToken
open Element (seqPaths altPaths)

-- ---------------------------------------------------------------------------
-- Steps
-- ---------------------------------------------------------------------------

namespace Reader

theorem run?_append (r : Reader) (front back : List PatternToken) :
    r.run? (front ++ back) = (r.run? front).bind fun r => r.run? back := by
  induction front generalizing r with
  | nil => rfl
  | cons token rest ih =>
    rw [List.cons_append, run?, run?]
    cases r.step token with
    | error e => rfl
    | ok next => exact ih next

theorem run?_of_run? {r next : Reader} {front : List PatternToken}
    (h : r.run? front = .ok next) (back : List PatternToken) :
    r.run? (front ++ back) = next.run? back := by
  rw [run?_append, h]
  rfl

theorem step_word {place : Place} (h : place ≠ .afterTerm) (run : Run) (groups : List OpenGroup)
    (chars : List Char) : step ⟨place, run, groups⟩ (.word chars) =
      .ok ⟨.afterTerm, run.addWord chars, groups⟩ := by
  cases place with
  | start => rfl
  | afterDot => rfl
  | afterTerm => exact absurd rfl h

theorem step_opening {place : Place} (h : place ≠ .afterTerm) (run : Run)
    (groups : List OpenGroup) : step ⟨place, run, groups⟩ .opening =
      .ok ⟨.start, .empty, ⟨run, []⟩ :: groups⟩ := by
  cases place with
  | start => rfl
  | afterDot => rfl
  | afterTerm => exact absurd rfl h

/-- Where a branch may end, a parenthesis closes the group. -/
theorem step_closing {place : Place} (h : place ≠ .afterDot) (run : Run) (group : OpenGroup)
    (outer : List OpenGroup) : step ⟨place, run, group :: outer⟩ .closing =
      .ok ⟨.afterTerm, group.close run, outer⟩ := by
  cases place with
  | start => rfl
  | afterDot => exact absurd rfl h
  | afterTerm => rfl

/-- Where a branch may end, a bar begins the next one. -/
theorem step_bar {place : Place} (h : place ≠ .afterDot) (run : Run) (group : OpenGroup)
    (outer : List OpenGroup) : step ⟨place, run, group :: outer⟩ .bar =
      .ok ⟨.start, .empty, { group with branches := run.toBranch :: group.branches } :: outer⟩ := by
  cases place with
  | start => rfl
  | afterDot => exact absurd rfl h
  | afterTerm => rfl

/-- A branch can end only in an open group: the group is closed, or goes on. -/
theorem endBranch_eq_ok {r next : Reader} {token : PatternToken}
    (h : r.endBranch token = .ok next) : ∃ group outer, r.groups = group :: outer ∧
      ((token = .closing ∧ next = ⟨.afterTerm, group.close r.run, outer⟩) ∨
        (token = .bar ∧ next = ⟨.start, .empty,
          { group with branches := r.run.toBranch :: group.branches } :: outer⟩)) := by
  obtain ⟨place, run, groups⟩ := r
  cases groups with
  | nil => cases token <;> cases h
  | cons group outer =>
    refine ⟨group, outer, rfl, ?_⟩
    cases token with
    | closing =>
      cases h
      exact .inl ⟨rfl, rfl⟩
    | bar =>
      cases h
      exact .inr ⟨rfl, rfl⟩
    | word cs => cases h
    | dot => cases h
    | opening => cases h

/-- What a step can do: begin a term, go on behind one, or end a branch. -/
theorem step_eq_ok {r next : Reader} {token : PatternToken} (h : r.step token = .ok next) :
    (r.place ≠ .afterTerm ∧
      ((∃ cs, token = .word cs ∧ next = ⟨.afterTerm, r.run.addWord cs, r.groups⟩) ∨
        (token = .opening ∧ next = ⟨.start, .empty, ⟨r.run, []⟩ :: r.groups⟩))) ∨
    (r.place = .afterTerm ∧ token = .dot ∧ next = ⟨.afterDot, r.run, r.groups⟩) ∨
    (r.place ≠ .afterDot ∧ ∃ group outer, r.groups = group :: outer ∧
      ((token = .closing ∧ next = ⟨.afterTerm, group.close r.run, outer⟩) ∨
        (token = .bar ∧ next = ⟨.start, .empty,
          { group with branches := r.run.toBranch :: group.branches } :: outer⟩))) := by
  obtain ⟨place, run, groups⟩ := r
  cases place with
  | afterTerm =>
    right
    cases token with
    | dot =>
      cases h
      exact .inl ⟨rfl, rfl, rfl⟩
    | word cs => exact .inr ⟨nofun, endBranch_eq_ok h⟩
    | opening => exact .inr ⟨nofun, endBranch_eq_ok h⟩
    | closing => exact .inr ⟨nofun, endBranch_eq_ok h⟩
    | bar => exact .inr ⟨nofun, endBranch_eq_ok h⟩
  | start =>
    cases token with
    | word cs =>
      cases h
      exact .inl ⟨nofun, .inl ⟨cs, rfl, rfl⟩⟩
    | opening =>
      cases h
      exact .inl ⟨nofun, .inr ⟨rfl, rfl⟩⟩
    | dot => exact .inr (.inr ⟨nofun, endBranch_eq_ok h⟩)
    | closing => exact .inr (.inr ⟨nofun, endBranch_eq_ok h⟩)
    | bar => exact .inr (.inr ⟨nofun, endBranch_eq_ok h⟩)
  | afterDot =>
    cases token with
    | word cs =>
      cases h
      exact .inl ⟨nofun, .inl ⟨cs, rfl, rfl⟩⟩
    | opening =>
      cases h
      exact .inl ⟨nofun, .inr ⟨rfl, rfl⟩⟩
    | dot => cases h
    | closing => cases h
    | bar => cases h

/-- What holds at the start and is kept by each step holds of what has been read. -/
theorem invariant_run? {I : Reader → List PatternToken → Prop}
    (hStep : ∀ {r next : Reader} {before : List PatternToken} {token : PatternToken}, I r before →
      (∀ cs, token = .word cs → IsWord cs) → r.step token = .ok next → I next (before ++ [token]))
    {tokens : List PatternToken} (hWords : ∀ cs, .word cs ∈ tokens → IsWord cs) :
    ∀ (before : List PatternToken) {r next : Reader}, I r before → r.run? tokens = .ok next →
      I next (before ++ tokens) := by
  induction tokens with
  | nil =>
    intro before r next h hRun
    cases hRun
    rwa [List.append_nil]
  | cons token rest ih =>
    intro before r next h hRun
    rw [run?] at hRun
    cases hFirst : r.step token with
    | error e =>
      rw [hFirst] at hRun
      cases hRun
    | ok middle =>
      rw [hFirst] at hRun
      have hMiddle := hStep h (fun cs hEq => hWords cs (hEq ▸ List.mem_cons_self)) hFirst
      have hNext := ih (fun cs hcs => hWords cs (List.mem_cons_of_mem _ hcs)) _ hMiddle hRun
      rwa [List.append_assoc] at hNext

end Reader

/-- The reader may finish behind a term, with no group open. -/
theorem Reader.finish_eq_ok {r : Reader} {elements : List Element} (h : r.finish = .ok elements) :
    ∃ run : Run, r = ⟨.afterTerm, run, []⟩ ∧ elements = run.parts.reverse := by
  obtain ⟨place, run, groups⟩ := r
  cases groups with
  | cons group outer => cases place <;> cases h
  | nil =>
    cases place with
    | start => cases h
    | afterDot => cases h
    | afterTerm =>
      cases h
      exact ⟨run, rfl, rfl⟩

/-- What a text is read as, if it is a pattern. -/
theorem parse_eq_ok {spec : String} {p : Pattern} (h : parse spec = .ok p) :
    ∃ tokens run, scan spec.toList = .ok tokens ∧
      Reader.initial.run? tokens = .ok ⟨.afterTerm, run, []⟩ ∧ p.elements = run.parts.reverse := by
  rw [parse] at h
  cases hScan : scan spec.toList with
  | error c =>
    rw [hScan] at h
    cases h
  | ok tokens =>
    rw [hScan] at h
    cases hRun : Reader.initial.run? tokens with
    | error e =>
      simp only [parseTokens, hRun] at h
      cases h
    | ok r =>
      cases hFinish : r.finish with
      | error e =>
        simp only [parseTokens, hRun, Except.bind, hFinish] at h
        cases h
      | ok elements =>
        simp only [parseTokens, hRun, Except.bind, hFinish] at h
        cases h
        obtain ⟨run, rfl, hElements⟩ := Reader.finish_eq_ok hFinish
        exact ⟨tokens, run, rfl, hRun, hElements⟩

-- ---------------------------------------------------------------------------
-- Combinations
-- ---------------------------------------------------------------------------

theorem combine_nil (paths : List KeyPath) : combine [[]] paths = paths := by
  simp [combine]

theorem combine_assoc (a b c : List KeyPath) :
    combine (combine a b) c = combine a (combine b c) := by
  simp only [combine, List.flatMap_assoc, List.map_flatMap, List.flatMap_map, List.map_map,
    Function.comp_def, List.append_assoc]

theorem combine_nil_right (paths : List KeyPath) : combine paths [[]] = paths := by
  simp [combine]

theorem seqPaths_append (front back : List Element) :
    seqPaths (front ++ back) = combine (seqPaths front) (seqPaths back) := by
  induction front with
  | nil => exact (combine_nil _).symm
  | cons part rest ih =>
    show combine part.paths (seqPaths (rest ++ back)) =
      combine (combine part.paths (seqPaths rest)) _
    rw [ih, combine_assoc]

theorem altPaths_append (front back : List Element) :
    altPaths (front ++ back) = altPaths front ++ altPaths back := by
  induction front with
  | nil => rfl
  | cons branch rest ih => rw [List.cons_append, altPaths, altPaths, ih, List.append_assoc]

theorem seqPaths_singleton (part : Element) : seqPaths [part] = part.paths := combine_nil_right _

theorem altPaths_singleton (branch : Element) : altPaths [branch] = branch.paths :=
  List.append_nil _

-- ---------------------------------------------------------------------------
-- What has been read
-- ---------------------------------------------------------------------------

/-- The paths of what has been read of an expression. -/
def Run.paths (run : Run) : List KeyPath := seqPaths run.parts.reverse

theorem Run.paths_cons (part : Element) (parts : List Element) (joinable : Bool) :
    Run.paths ⟨part :: parts, joinable⟩ = combine (seqPaths parts.reverse) part.paths := by
  rw [Run.paths, List.reverse_cons, seqPaths_append, seqPaths_singleton]

theorem Run.paths_addWord (run : Run) (chars : List Char) :
    (run.addWord chars).paths = combine run.paths [[String.ofList chars]] := by
  rw [addWord]
  split
  · rename_i segments rest hJoinable hParts
    rw [paths_cons, Run.paths, hParts, List.reverse_cons, seqPaths_append, seqPaths_singleton,
      combine_assoc]
    rfl
  · rw [paths_cons]
    rfl

theorem Run.paths_addGroup (run : Run) (group : Element) :
    (run.addGroup group).paths = combine run.paths group.paths := paths_cons _ _ _

theorem Run.paths_toBranch (run : Run) : run.toBranch.paths = run.paths := by
  rw [toBranch]
  split
  · rename_i part hParts
    rw [Run.paths, hParts, List.reverse_singleton, seqPaths_singleton]
  · rfl

theorem OpenGroup.paths_close (group : OpenGroup) (last : Run) :
    (group.close last).paths =
      combine group.before.paths (altPaths group.branches.reverse ++ last.paths) := by
  have hAll : altPaths (last.toBranch :: group.branches).reverse =
      altPaths group.branches.reverse ++ last.paths := by
    rw [List.reverse_cons, altPaths_append, altPaths_singleton, Run.paths_toBranch]
  rw [close, ← hAll]
  split
  · rename_i branch hBranches
    rw [Run.paths_addGroup, hBranches, altPaths_singleton]
  · rw [Run.paths_addGroup]
    rfl

-- ---------------------------------------------------------------------------
-- Reading what the grammar derives
-- ---------------------------------------------------------------------------

namespace Derivation

/-- The reader takes the tokens of a derivation where the symbol may stand, and what it
has read then has the paths that the derivation denotes. -/
def Taken : {s : Symbol} → Derivation s → Prop
  | .expression, d | .term, d => ∀ (place : Place) (run : Run) (groups : List OpenGroup),
    place ≠ .afterTerm → ∃ next, Reader.run? ⟨place, run, groups⟩ d.tokens =
      .ok ⟨.afterTerm, next, groups⟩ ∧ next.paths = combine run.paths d.paths
  | .branches, d => ∀ (before : Run) (outer : List OpenGroup), ∃ place run branches,
    place ≠ .afterDot ∧ Reader.run? ⟨.start, .empty, ⟨before, []⟩ :: outer⟩ d.tokens =
      .ok ⟨place, run, ⟨before, branches⟩ :: outer⟩ ∧
    altPaths branches.reverse ++ run.paths = d.paths
  | .branch, d => ∀ groups : List OpenGroup, ∃ place run, place ≠ .afterDot ∧
    Reader.run? ⟨.start, .empty, groups⟩ d.tokens = .ok ⟨place, run, groups⟩ ∧
    run.paths = d.paths

theorem taken_dotted {front : Derivation .expression} {term : Derivation .term}
    (hFront : front.Taken) (hTerm : term.Taken) : (dotted front term).Taken := by
  intro place run groups hPlace
  obtain ⟨middle, hMiddle, hMiddlePaths⟩ := hFront place run groups hPlace
  obtain ⟨next, hNext, hNextPaths⟩ := hTerm .afterDot middle groups nofun
  refine ⟨next, ?_, ?_⟩
  · rw [tokens, Reader.run?_of_run? hMiddle]
    exact hNext
  · rw [hNextPaths, hMiddlePaths, combine_assoc]
    rfl

theorem taken_group {branches : Derivation .branches} (h : branches.Taken) :
    (group branches).Taken := by
  intro place run groups hPlace
  obtain ⟨last, inside, finished, hLast, hInside, hPaths⟩ := h run groups
  refine ⟨OpenGroup.close ⟨run, finished⟩ inside, ?_, ?_⟩
  · show Reader.run? _ (opening :: (branches.tokens ++ [closing])) = _
    rw [Reader.run?, Reader.step_opening hPlace]
    show Reader.run? _ (branches.tokens ++ [closing]) = _
    rw [Reader.run?_of_run? hInside, Reader.run?, Reader.step_closing hLast]
    rfl
  · rw [OpenGroup.paths_close, hPaths]
    rfl

theorem taken_barred {front : Derivation .branches} {branch : Derivation .branch}
    (hFront : front.Taken) (hBranch : branch.Taken) : (barred front branch).Taken := by
  intro before outer
  obtain ⟨place, run, branches, hPlace, hRun, hPaths⟩ := hFront before outer
  obtain ⟨place', run', hPlace', hRun', hPaths'⟩ :=
    hBranch (⟨before, run.toBranch :: branches⟩ :: outer)
  refine ⟨place', run', run.toBranch :: branches, hPlace', ?_, ?_⟩
  · rw [tokens, Reader.run?_of_run? hRun, Reader.run?, Reader.step_bar hPlace]
    exact hRun'
  · rw [List.reverse_cons, altPaths_append, altPaths_singleton, Run.paths_toBranch, hPaths, hPaths']
    rfl

theorem taken (d : Derivation s) : d.Taken := by
  induction d with
  | single term ih => exact ih
  | dotted front term ihFront ihTerm => exact taken_dotted ihFront ihTerm
  | word cs nonempty letters =>
    intro place run groups hPlace
    refine ⟨run.addWord cs, ?_, Run.paths_addWord run cs⟩
    rw [tokens, Reader.run?, Reader.step_word hPlace]
    rfl
  | group branches ih => exact taken_group ih
  | only branch ih =>
    intro before outer
    obtain ⟨place, run, hPlace, hRun, hPaths⟩ := ih (⟨before, []⟩ :: outer)
    exact ⟨place, run, [], hPlace, hRun, hPaths⟩
  | barred front branch ihFront ihBranch => exact taken_barred ihFront ihBranch
  | filled expression ih =>
    intro groups
    obtain ⟨run, hRun, hPaths⟩ := ih .start .empty groups (by decide)
    exact ⟨.afterTerm, run, by decide, hRun, hPaths.trans (combine_nil _)⟩
  | empty => exact fun groups => ⟨.start, .empty, by decide, rfl, rfl⟩

/-- A text that is derived as an expression is a pattern, with the paths that the
derivation denotes. -/
theorem parse_chars (d : Derivation .expression) {spec : String} (h : d.chars = spec.toList) :
    ∃ p, parse spec = .ok p ∧ p.paths = d.paths := by
  have hScan : scan spec.toList = .ok d.tokens := by
    have hNothing : scan [] = .ok [] := rfl
    have hScan := d.scan_chars hNothing nofun
    rwa [List.append_nil, List.append_nil, h] at hScan
  obtain ⟨run, hRun, hPaths⟩ := d.taken .start .empty [] nofun
  refine ⟨⟨spec, run.parts.reverse⟩, ?_, hPaths.trans (combine_nil _)⟩
  rw [parse, hScan]
  show (parseTokens d.tokens).map (Pattern.mk spec) = _
  rw [parseTokens, Reader.initial, hRun]
  rfl

end Derivation

-- ---------------------------------------------------------------------------
-- What is read is derived
-- ---------------------------------------------------------------------------

/-- The tokens of an expression as far as they are read, by the place of the reader. -/
inductive Begun : Place → List PatternToken → Prop
  | start : Begun .start []
  | afterDot (front : Derivation .expression) : Begun .afterDot (front.tokens ++ [dot])
  | afterTerm (expression : Derivation .expression) : Begun .afterTerm expression.tokens

/-- The tokens of the branches of a group that are finished, with their bars. -/
inductive Finished : List PatternToken → Prop
  | none : Finished []
  | some (branches : Derivation .branches) : Finished (branches.tokens ++ [bar])

/-- The tokens in front of the innermost expression, by the number of open groups. -/
inductive Opened : Nat → List PatternToken → Prop
  | none : Opened 0 []
  | group {depth : Nat} {outer : List PatternToken} (opened : Opened depth outer) {place : Place}
      (apart : place ≠ .afterTerm) {before : List PatternToken} (begun : Begun place before)
      {branches : List PatternToken} (finished : Finished branches) :
      Opened (depth + 1) (outer ++ before ++ opening :: branches)

/-- The tokens read so far begin a derivation that leads to where the reader is. -/
def Reader.Derives (r : Reader) (tokens : List PatternToken) : Prop :=
  ∃ outer inner, Opened r.groups.length outer ∧ Begun r.place inner ∧ tokens = outer ++ inner

theorem Begun.add {place : Place} {tokens : List PatternToken} (h : Begun place tokens)
    (hPlace : place ≠ .afterTerm) (term : Derivation .term) :
    Begun .afterTerm (tokens ++ term.tokens) := by
  cases h with
  | start => exact .afterTerm (.single term)
  | afterDot front =>
    rw [List.append_assoc]
    exact .afterTerm (.dotted front term)
  | afterTerm => exact absurd rfl hPlace

theorem Begun.branch {place : Place} {tokens : List PatternToken} (h : Begun place tokens)
    (hPlace : place ≠ .afterDot) : ∃ branch : Derivation .branch, branch.tokens = tokens := by
  cases h with
  | start => exact ⟨.empty, rfl⟩
  | afterDot front => exact absurd rfl hPlace
  | afterTerm expression => exact ⟨.filled expression, rfl⟩

theorem Finished.add {tokens : List PatternToken} (h : Finished tokens)
    (branch : Derivation .branch) :
    ∃ branches : Derivation .branches, branches.tokens = tokens ++ branch.tokens := by
  cases h with
  | none => exact ⟨.only branch, rfl⟩
  | some branches =>
    refine ⟨.barred branches branch, ?_⟩
    rw [List.append_assoc]
    rfl

namespace Reader

theorem derives_step {r next : Reader} {tokens : List PatternToken} {token : PatternToken}
    (h : r.Derives tokens) (hWord : ∀ cs, token = .word cs → IsWord cs)
    (hStep : r.step token = .ok next) : next.Derives (tokens ++ [token]) := by
  obtain ⟨outer, inner, hOpened, hBegun, rfl⟩ := h
  rcases step_eq_ok hStep with
    ⟨hPlace, ⟨cs, rfl, rfl⟩ | ⟨rfl, rfl⟩⟩ | ⟨hPlace, rfl, rfl⟩ |
      ⟨hPlace, group, groups, hGroups, hEnd⟩
  · -- a word
    obtain ⟨nonempty, letters⟩ := hWord cs rfl
    have hTerm := hBegun.add hPlace
      (.word cs nonempty fun c hc => (isWordChar_iff c).1 (letters c hc))
    exact ⟨outer, _, hOpened, hTerm, List.append_assoc _ _ _⟩
  · -- a group begins
    exact ⟨_, [], .group hOpened hPlace hBegun .none, .start, (List.append_nil _).symm⟩
  · -- a dot
    rw [hPlace] at hBegun
    cases hBegun with
    | afterTerm front => exact ⟨outer, _, hOpened, .afterDot front, List.append_assoc _ _ _⟩
  · -- a branch ends
    obtain ⟨branch, rfl⟩ := hBegun.branch hPlace
    rw [hGroups] at hOpened
    cases hOpened with
    | @group _ front hFront _ apart before begun finished done =>
      obtain ⟨branches, hBranches⟩ := done.add branch
      rcases hEnd with ⟨rfl, rfl⟩ | ⟨rfl, rfl⟩
      · refine ⟨front, before ++ (Derivation.group branches).tokens, hFront,
          begun.add apart (.group branches), ?_⟩
        simp [Derivation.tokens, hBranches]
      · refine ⟨front ++ before ++ opening :: (branches.tokens ++ [bar]), [],
          .group hFront apart begun (.some branches), .start, ?_⟩
        simp [hBranches]

/-- Where the reader may finish, it has read an expression. -/
theorem Derives.exists_expression {run : Run} {tokens : List PatternToken}
    (h : Derives ⟨.afterTerm, run, []⟩ tokens) :
    ∃ d : Derivation .expression, d.tokens = tokens := by
  obtain ⟨outer, inner, hOpened, hBegun, rfl⟩ := h
  cases hOpened with
  | none =>
    cases hBegun with
    | afterTerm expression => exact ⟨expression, rfl⟩

end Reader

/-- A pattern is derived as an expression. -/
theorem exists_derivation_of_parse {spec : String} {p : Pattern} (h : parse spec = .ok p) :
    ∃ d : Derivation .expression, d.chars = spec.toList := by
  obtain ⟨tokens, run, hScan, hRun, -⟩ := parse_eq_ok h
  have hStart : Reader.initial.Derives [] := ⟨[], [], .none, .start, rfl⟩
  have hDerives := Reader.invariant_run? Reader.derives_step (isWord_of_scan hScan) [] hStart hRun
  obtain ⟨d, hd⟩ := hDerives.exists_expression
  exact ⟨d, by rw [d.chars_eq_written, hd, eq_written_of_scan hScan, List.nil_append]⟩

/-- **Patterns are what the grammar derives.** A text is read as a pattern if and only if
it is derived as an expression, and then the pattern has, in the same order, the paths
that any derivation of the text denotes. -/
theorem parse_iff_derivation (spec : String) :
    ((∃ p, parse spec = .ok p) ↔ ∃ d : Derivation .expression, d.chars = spec.toList) ∧
    ∀ (p : Pattern) (d : Derivation .expression), parse spec = .ok p → d.chars = spec.toList →
      p.paths = d.paths := by
  refine ⟨⟨fun ⟨p, h⟩ => exists_derivation_of_parse h, fun ⟨d, hd⟩ => ?_⟩, fun p d h hd => ?_⟩
  · obtain ⟨p, h, -⟩ := d.parse_chars hd
    exact ⟨p, h⟩
  · obtain ⟨p', h', hPaths⟩ := d.parse_chars hd
    rw [h] at h'
    cases h'
    exact hPaths

/-- Words that are joined, an empty branch, and a group in a group of one branch. -/
def groupsDerivation : Derivation .expression :=
  let letter (c : Char) (h : InWords c) : Derivation .term :=
    .word [c] (List.cons_ne_nil c []) (List.forall_mem_singleton.2 h)
  let choice : Derivation .term :=
    .group (.barred (.only (.filled (.single (letter 'c' (by decide))))) .empty)
  .dotted (.dotted (.single (letter 'a' (by decide))) (letter 'b' (by decide)))
    (.group (.only (.filled (.single choice))))

theorem parse_iff_derivation_of_groups :
    let p : Pattern := ⟨"a.b.((c|))", [.word ["a", "b"], .alt [.word ["c"], .seq []]]⟩
    parse "a.b.((c|))" = .ok p ∧ groupsDerivation.chars = "a.b.((c|))".toList ∧
      p.paths = groupsDerivation.paths ∧ p.paths = [["a", "b", "c"], ["a", "b"]] := by
  intro p
  have hParse : parse "a.b.((c|))" = .ok p := by rfl
  have hChars : groupsDerivation.chars = "a.b.((c|))".toList := by rfl
  exact ⟨hParse, hChars, (parse_iff_derivation _).2 p groupsDerivation hParse hChars, by rfl⟩

end Pattern

end LayeredConfig
