import LayeredConfig.Proofs.Parsing
import LayeredConfig.Error

/-!
# LayeredConfig — why a text is no pattern

The message for a text that is no pattern says where it goes wrong. That is the first character
that has no place in patterns, if there is one. Otherwise it is a token, or the end: the tokens in
front of it can still be gone on with to a pattern, those up to it cannot. The reader knows nothing
about what may come. But wherever it is, it can be led to the end of a pattern
(`Pattern.Reader.exists_completion`). So the tokens that it has taken are exactly those that can be
gone on with, and the token that it refuses is the one to be named.

Main results:

* `PatternToken.scan_eq_error`   — the first character without a place.
* `Pattern.Completable`          — tokens that some pattern begins with.
* `Pattern.completable_iff`      — they are those that the reader takes.
* `Pattern.rejected_at_offense`  — what the message says.
-/

namespace LayeredConfig

-- ---------------------------------------------------------------------------
-- Characters
-- ---------------------------------------------------------------------------

namespace PatternToken

/-- The characters that patterns are written with. -/
def InPatterns (c : Char) : Prop :=
  InWords c ∨ c = '.' ∨ c = '(' ∨ c = ')' ∨ c = '|'

instance (c : Char) : Decidable (InPatterns c) :=
  inferInstanceAs (Decidable (_ ∨ _))

theorem inPatterns_iff (c : Char) :
    InPatterns c ↔ isWordChar c = true ∨ ∃ token, ofMark? c = some token := by
  rw [InPatterns, isWordChar_iff]
  refine or_congr_right ⟨?_, fun ⟨token, h⟩ => ?_⟩
  · rintro (rfl | rfl | rfl | rfl) <;> exact ⟨_, rfl⟩
  · rw [ofMark?.eq_def] at h
    split at h
    · exact .inl rfl
    · exact .inr (.inl rfl)
    · exact .inr (.inr (.inl rfl))
    · exact .inr (.inr (.inr rfl))
    · cases h

/-- A character with a place in patterns leaves it to those behind it whether there are tokens. -/
theorem scan_cons_of_inPatterns {c : Char} (h : InPatterns c) (rest : List Char) :
    ∃ add, scan (c :: rest) = (scan rest).map add := by
  rw [scan]
  rcases (inPatterns_iff c).1 h with hWord | ⟨token, hMark⟩
  · rw [if_pos hWord]
    exact ⟨consWordChar c, rfl⟩
  · rw [isWordChar_of_ofMark? hMark, if_neg Bool.false_ne_true, hMark]
    exact ⟨(token :: ·), rfl⟩

/-- The first character without a place is found. -/
theorem scan_eq_error {front back : List Char} {c : Char} (hFront : ∀ a ∈ front, InPatterns a)
    (hc : ¬ InPatterns c) : scan (front ++ c :: back) = .error c := by
  induction front with
  | nil =>
    rw [inPatterns_iff, not_or, not_exists] at hc
    obtain ⟨hWord, hMark⟩ := hc
    rw [List.nil_append, scan, if_neg hWord, Option.eq_none_iff_forall_ne_some.2 hMark]
  | cons a rest ih =>
    obtain ⟨add, hScan⟩ := scan_cons_of_inPatterns (hFront a List.mem_cons_self) (rest ++ c :: back)
    rw [List.cons_append, hScan, ih fun b hb => hFront b (List.mem_cons_of_mem a hb)]
    rfl

theorem exists_scan {chars : List Char} (h : ∀ c ∈ chars, InPatterns c) :
    ∃ tokens, scan chars = .ok tokens := by
  induction chars with
  | nil => exact ⟨[], rfl⟩
  | cons c rest ih =>
    obtain ⟨tokens, hRest⟩ := ih fun a ha => h a (List.mem_cons_of_mem c ha)
    obtain ⟨add, hScan⟩ := scan_cons_of_inPatterns (h c List.mem_cons_self) rest
    exact ⟨add tokens, by rw [hScan, hRest]; rfl⟩

end PatternToken

-- ---------------------------------------------------------------------------
-- Messages
-- ---------------------------------------------------------------------------

/-- The message says that this was found, or the end, where something else is needed. -/
def PatternError.Reports (e : PatternError) (token : Option PatternToken) : Prop :=
  ∃ lead ∈ ["unexpected ", "expected ')', got ", "expected a word or '(', got "],
    (ConfigError.badPattern e).message = "syntax error: " ++ (lead ++ PatternError.found token)

namespace Pattern

open PatternToken

namespace Reader

-- ---------------------------------------------------------------------------
-- Where the reader stops
-- ---------------------------------------------------------------------------

theorem reports_endBranch {r : Reader} {token : PatternToken} {e : PatternError}
    (h : r.endBranch token = .error e) : e.Reports (some token) := by
  rw [endBranch.eq_def] at h
  split at h
  · cases h
  · cases h
  · cases h
    exact ⟨"expected ')', got ", by simp, rfl⟩
  · cases h
    exact ⟨"unexpected ", by simp, rfl⟩

/-- A token that is refused is named. -/
theorem reports_step {r : Reader} {token : PatternToken} {e : PatternError}
    (h : r.step token = .error e) : e.Reports (some token) := by
  rw [step.eq_def] at h
  split at h
  · cases h
  · exact reports_endBranch h
  · cases h
  · cases h
  · cases h
    exact ⟨"expected a word or '(', got ", by simp, rfl⟩
  · exact reports_endBranch h

/-- If the tokens are not all taken, there is a first one that is refused. -/
theorem run?_eq_error {r : Reader} {tokens : List PatternToken} {e : PatternError}
    (h : r.run? tokens = .error e) : ∃ front token back next, tokens = front ++ token :: back ∧
      r.run? front = .ok next ∧ next.step token = .error e := by
  induction tokens generalizing r with
  | nil => cases h
  | cons token rest ih =>
    rw [run?] at h
    cases hStep : r.step token with
    | error e' =>
      rw [hStep] at h
      cases h
      exact ⟨[], token, rest, r, rfl, rfl, hStep⟩
    | ok middle =>
      rw [hStep] at h
      obtain ⟨front, refused, back, next, rfl, hRun, hRefused⟩ := ih h
      refine ⟨token :: front, refused, back, next, rfl, ?_, hRefused⟩
      rw [run?, hStep]
      exact hRun

/-- Behind a token, an expression can begin only in a group. -/
theorem groups_ne_nil_of_step {r next : Reader} {token : PatternToken}
    (h : r.step token = .ok next) (hPlace : next.place = .start) : next.groups ≠ [] := by
  rcases step_eq_ok h with ⟨-, ⟨cs, -, rfl⟩ | ⟨-, rfl⟩⟩ | ⟨-, -, rfl⟩ |
    ⟨-, group, outer, -, ⟨-, rfl⟩ | ⟨-, rfl⟩⟩
  · cases hPlace
  · exact List.cons_ne_nil _ _
  · cases hPlace
  · cases hPlace
  · exact List.cons_ne_nil _ _

/-- Where a pattern may not end, the end is named. -/
theorem reports_finish {r : Reader} {e : PatternError}
    (hBegun : r.place = .start → r.groups ≠ []) (h : r.finish = .error e) : e.Reports none := by
  obtain ⟨place, run, groups⟩ := r
  cases groups with
  | nil =>
    cases place with
    | start => exact absurd rfl (hBegun rfl)
    | afterDot =>
      cases h
      exact ⟨"expected a word or '(', got ", by simp, rfl⟩
    | afterTerm => cases h
  | cons group outer =>
    cases place with
    | afterDot =>
      cases h
      exact ⟨"expected a word or '(', got ", by simp, rfl⟩
    | start =>
      cases h
      exact ⟨"expected ')', got ", by simp, rfl⟩
    | afterTerm =>
      cases h
      exact ⟨"expected ')', got ", by simp, rfl⟩

-- ---------------------------------------------------------------------------
-- Going on
-- ---------------------------------------------------------------------------

/-- The groups that are open can be closed. -/
theorem exists_run?_closing (groups : List OpenGroup) : ∀ run : Run, ∃ last,
    Reader.run? ⟨.afterTerm, run, groups⟩ (List.replicate groups.length .closing) =
      .ok ⟨.afterTerm, last, []⟩ := by
  induction groups with
  | nil => exact fun run => ⟨run, rfl⟩
  | cons group outer ih =>
    intro run
    obtain ⟨last, hLast⟩ := ih (group.close run)
    have hPlace : Place.afterTerm ≠ .afterDot := by decide
    refine ⟨last, ?_⟩
    rw [List.length_cons, List.replicate_succ, run?, step_closing hPlace]
    exact hLast

/-- Wherever the reader is, some tokens lead it to the end of a pattern. -/
theorem exists_completion (r : Reader) : ∃ more run,
    (∀ cs, .word cs ∈ more → IsWord cs) ∧ r.run? more = .ok ⟨.afterTerm, run, []⟩ := by
  obtain ⟨place, run, groups⟩ := r
  have hClosing : ∀ cs, PatternToken.word cs ∉ List.replicate groups.length .closing :=
    fun cs hcs => by cases List.eq_of_mem_replicate hcs
  by_cases hPlace : place = .afterTerm
  · subst hPlace
    obtain ⟨last, hLast⟩ := exists_run?_closing groups run
    exact ⟨_, last, fun cs hcs => absurd hcs (hClosing cs), hLast⟩
  · -- a term first
    obtain ⟨last, hLast⟩ := exists_run?_closing groups (run.addWord ['a'])
    refine ⟨.word ['a'] :: List.replicate groups.length .closing, last, fun cs hcs => ?_, ?_⟩
    · rcases List.mem_cons.1 hcs with hEq | hcs
      · cases hEq
        decide
      · exact absurd hcs (hClosing cs)
    · rw [run?, step_word hPlace]
      exact hLast

end Reader

/-- Some pattern begins with the tokens. -/
def Completable (tokens : List PatternToken) : Prop :=
  ∃ spec p more, scan spec.toList = .ok (tokens ++ more) ∧ parse spec = .ok p

/-- Words, marks and the like in a row are the tokens of a text if the reader gets to the end of a
pattern with them. -/
theorem exists_parse_of_run? {tokens : List PatternToken} {run : Run}
    (hWords : ∀ cs, .word cs ∈ tokens → IsWord cs)
    (h : Reader.initial.run? tokens = .ok ⟨.afterTerm, run, []⟩) :
    ∃ spec p, scan spec.toList = .ok tokens ∧ parse spec = .ok p := by
  have hStart : Reader.initial.Derives [] := ⟨[], [], .none, .start, rfl⟩
  have hDerives := Reader.invariant_run? Reader.derives_step hWords [] hStart h
  obtain ⟨d, hTokens⟩ := hDerives.exists_expression
  have hText : d.chars = (String.ofList d.chars).toList := String.toList_ofList.symm
  obtain ⟨p, hParse, -⟩ := d.parse_chars hText
  refine ⟨String.ofList d.chars, p, ?_, hParse⟩
  have hNothing : scan [] = .ok [] := rfl
  have hScan := d.scan_chars hNothing nofun
  rwa [List.append_nil, List.append_nil, hTokens, List.nil_append, hText] at hScan

/-- The tokens that some pattern begins with are those that the reader takes. -/
theorem completable_iff {tokens : List PatternToken}
    (hWords : ∀ cs, .word cs ∈ tokens → IsWord cs) :
    Completable tokens ↔ ∃ r, Reader.initial.run? tokens = .ok r := by
  constructor
  · rintro ⟨spec, p, more, hScan, hParse⟩
    obtain ⟨all, run, hAll, hRun, -⟩ := parse_eq_ok hParse
    cases hScan.symm.trans hAll
    cases hFront : Reader.initial.run? tokens with
    | ok r => exact ⟨r, rfl⟩
    | error e =>
      rw [Reader.run?_append, hFront] at hRun
      cases hRun
  · rintro ⟨r, hRun⟩
    obtain ⟨more, run, hMore, hEnd⟩ := r.exists_completion
    have hAll : ∀ cs, .word cs ∈ tokens ++ more → IsWord cs := fun cs hcs =>
      (List.mem_append.1 hcs).elim (hWords cs) (hMore cs)
    obtain ⟨spec, p, hScan, hParse⟩ :=
      exists_parse_of_run? hAll ((Reader.run?_of_run? hRun more).trans hEnd)
    exact ⟨spec, p, more, hScan, hParse⟩

theorem Completable.of_isPrefix {front tokens : List PatternToken} (h : Completable tokens)
    (hFront : front <+: tokens) : Completable front := by
  obtain ⟨spec, p, more, hScan, hParse⟩ := h
  obtain ⟨back, rfl⟩ := hFront
  exact ⟨spec, p, back ++ more, by rw [hScan, List.append_assoc], hParse⟩

-- ---------------------------------------------------------------------------
-- What is named
-- ---------------------------------------------------------------------------

section

variable {tokens : List PatternToken} {e : PatternError}

/-- A token that the reader refuses is where the tokens cannot be gone on with any more. -/
theorem rejected_at_token (hWords : ∀ cs, .word cs ∈ tokens → IsWord cs)
    (h : Reader.initial.run? tokens = .error e) : ∃ k token, tokens[k]? = some token ∧
      (∀ j, Completable (tokens.take j) ↔ j ≤ k) ∧ e.Reports (some token) := by
  obtain ⟨front, token, back, next, rfl, hRun, hStep⟩ := Reader.run?_eq_error h
  have hFront : Completable front := (completable_iff fun cs hcs =>
    hWords cs (List.mem_append_left _ hcs)).2 ⟨next, hRun⟩
  have hRefused : ¬ Completable (front ++ [token]) := by
    rw [completable_iff fun cs hcs => hWords cs ?_]
    · rintro ⟨r, hr⟩
      rw [Reader.run?_of_run? hRun, Reader.run?, hStep] at hr
      cases hr
    · rw [List.append_cons]
      exact List.mem_append_left _ hcs
  refine ⟨front.length, token, by simp, fun j => ⟨fun hj => ?_, fun hj => ?_⟩,
    Reader.reports_step hStep⟩
  · refine Nat.le_of_not_lt fun hLater => hRefused (hj.of_isPrefix ?_)
    refine List.prefix_take_iff.2 ⟨⟨back, (List.append_cons front token back).symm⟩, ?_⟩
    rw [List.length_append]
    exact hLater
  · refine hFront.of_isPrefix ?_
    rw [List.take_append_of_le_length hj]
    exact List.take_prefix j front

/-- If the reader takes all the tokens, it is the end that is named. -/
theorem rejected_at_end {r : Reader} (hWords : ∀ cs, .word cs ∈ tokens → IsWord cs)
    (hNonempty : tokens ≠ []) (hRun : Reader.initial.run? tokens = .ok r)
    (h : r.finish = .error e) : Completable tokens ∧ e.Reports none := by
  refine ⟨(completable_iff hWords).2 ⟨r, hRun⟩, Reader.reports_finish ?_ h⟩
  have hBegun := Reader.invariant_run?
    (I := fun r before => before ≠ [] → r.place = .start → r.groups ≠ [])
    (fun _ _ hStep _ => Reader.groups_ne_nil_of_step hStep) hWords [] (fun h => absurd rfl h) hRun
  exact hBegun (by rwa [List.nil_append])

/-- **Where a text goes wrong.** A text that is no pattern, and not empty, has a message. If some
character has no place in patterns, the message names the first such one. Otherwise it names a
token: some pattern begins with the tokens in front of it, and none begins with those up to it. Or
some pattern begins with all the tokens, and the message says that the end came. -/
theorem rejected_at_offense {spec : String} (hSpec : spec ≠ "") (h : parse spec = .error e) :
    (∀ front c back, spec.toList = front ++ c :: back → (∀ a ∈ front, InPatterns a) →
      ¬ InPatterns c → (ConfigError.badPattern e).message =
        "syntax error: " ++
          ("unexpected character '" ++ c.toString ++ "' in pattern '" ++ spec ++ "'")) ∧
    ((∀ c ∈ spec.toList, InPatterns c) → ∃ tokens, scan spec.toList = .ok tokens ∧
      ((∃ k token, tokens[k]? = some token ∧ (∀ j, Completable (tokens.take j) ↔ j ≤ k) ∧
          e.Reports (some token)) ∨
        Completable tokens ∧ e.Reports none)) := by
  rw [parse] at h
  refine ⟨fun front c back hChars hFront hc => ?_, fun hChars => ?_⟩
  · rw [hChars, scan_eq_error hFront hc] at h
    obtain rfl : PatternError.unexpectedCharacter c spec = e := Except.error.inj h
    rfl
  · obtain ⟨tokens, hScan⟩ := exists_scan hChars
    have hWords := isWord_of_scan hScan
    have hNonempty : tokens ≠ [] := by
      rintro rfl
      exact hSpec (String.toList_eq_nil_iff.1 (eq_written_of_scan hScan))
    rw [hScan] at h
    refine ⟨tokens, hScan, ?_⟩
    cases hRun : Reader.initial.run? tokens with
    | error e' =>
      simp only [parseTokens, hRun] at h
      cases h
      exact .inl (rejected_at_token hWords hRun)
    | ok r =>
      cases hFinish : r.finish with
      | ok elements =>
        simp only [parseTokens, hRun, Except.bind, hFinish] at h
        cases h
      | error e' =>
        simp only [parseTokens, hRun, Except.bind, hFinish] at h
        cases h
        exact .inr (rejected_at_end hWords hNonempty hRun hFinish)

end

/-- In an open group, a second dot in a row. -/
def dottedTwice : List PatternToken :=
  [word ['a'], dot, opening, word ['b'], bar, word ['c'], dot, dot, word ['d']]

/-- A character that is not ASCII, a second dot in a row, and a group that is not closed. -/
theorem rejected_at_offense_of_groups :
    (parse "a.(é$" = .error (.unexpectedCharacter 'é' "a.(é$") ∧
      (ConfigError.badPattern (.unexpectedCharacter 'é' "a.(é$")).message = "syntax error: " ++
        ("unexpected character '" ++ 'é'.toString ++ "' in pattern '" ++ "a.(é$" ++ "'")) ∧
    (parse "a.(b|c..d" = .error (.expectedTerm (some dot)) ∧
      (∀ j, Completable (dottedTwice.take j) ↔ j ≤ 7) ∧ dottedTwice[7]? = some dot ∧
        PatternError.Reports (.expectedTerm (some dot)) (some dot)) ∧
    parse "(a" = .error (.expectedClosing none) ∧ Completable [opening, word ['a']] ∧
      PatternError.Reports (.expectedClosing none) none := by
  have hFirst : parse "a.(é$" = .error (.unexpectedCharacter 'é' "a.(é$") := by rfl
  have hSecond : parse "a.(b|c..d" = .error (.expectedTerm (some dot)) := by rfl
  have hThird : parse "(a" = .error (.expectedClosing none) := by rfl
  -- looked through character by character, not through all characters
  have hChars : ∀ chars : List Char, (chars.all fun c => decide (InPatterns c)) = true →
      ∀ c ∈ chars, InPatterns c :=
    fun chars h c hc => of_decide_eq_true (List.all_eq_true.1 h c hc)
  refine ⟨⟨hFirst, ?_⟩, ⟨hSecond, ?_⟩, hThird, ?_⟩
  · exact (rejected_at_offense (by decide) hFirst).1 ['a', '.', '('] 'é' ['$'] (by decide)
      (hChars _ (by decide)) (by decide)
  · obtain ⟨tokens, hScan, hNamed⟩ := (rejected_at_offense (by decide) hSecond).2
      (hChars _ (by decide))
    obtain rfl : dottedTwice = tokens := Except.ok.inj ((by rfl : scan _ = .ok _).symm.trans hScan)
    have hTaken : ∀ j, Completable (dottedTwice.take j) ↔
        ∃ r, Reader.initial.run? (dottedTwice.take j) = .ok r :=
      fun j => completable_iff fun cs hcs => isWord_of_scan hScan cs (List.mem_of_mem_take hcs)
    have hSeven : Completable (dottedTwice.take 7) := (hTaken 7).2 ⟨_, rfl⟩
    have hEight : ¬ Completable (dottedTwice.take 8) := by
      rw [hTaken]
      rintro ⟨r, hr⟩
      cases hr
    rcases hNamed with ⟨k, token, hToken, hPrefix, hReports⟩ | ⟨hAll, -⟩
    · obtain rfl : k = 7 := by
        have := (hPrefix 7).1 hSeven
        have := mt (hPrefix 8).2 hEight
        omega
      cases hToken
      exact ⟨hPrefix, rfl, hReports⟩
    · exact absurd (hAll.of_isPrefix (List.take_prefix 8 _)) hEight
  · obtain ⟨tokens, hScan, hNamed⟩ := (rejected_at_offense (by decide) hThird).2
      (hChars _ (by decide))
    obtain rfl : [opening, word ['a']] = tokens :=
      Except.ok.inj ((by rfl : scan _ = .ok _).symm.trans hScan)
    rcases hNamed with ⟨k, token, hToken, hPrefix, -⟩ | hEnd
    · have hAll : Completable [opening, word ['a']] :=
        (completable_iff (isWord_of_scan hScan)).2 ⟨_, rfl⟩
      obtain ⟨hInside, -⟩ := List.getElem?_eq_some_iff.1 hToken
      exact absurd ((hPrefix 2).1 hAll) (Nat.not_le_of_lt hInside)
    · exact hEnd

end Pattern

end LayeredConfig
