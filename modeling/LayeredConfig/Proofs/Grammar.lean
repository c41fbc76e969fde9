import LayeredConfig.Proofs.PlainPath

/-!
# LayeredConfig — the grammar of patterns

What patterns look like is said by a grammar:

    expression := term | expression '.' term
    term       := word | '(' branches ')'
    branches   := branch | branches '|' branch
    branch     := expression | nothing

A word is one or more letters, digits, underscores and hyphens, all of them ASCII. A
derivation by these rules writes a text and denotes a list of paths: those of an
expression are all combinations of the paths of its terms, the first term varying
slowest, and those of branches come one branch after the other.

A word ends where something else begins. So from the text that a derivation writes
those tokens are read that the derivation uses.

* `PatternToken.eq_written_of_scan` — a text is what its tokens write.
* `Pattern.Derivation`        — derivations, by the symbol that they derive from.
* `Pattern.Derivation.chars`  — the text that a derivation writes.
* `Pattern.Derivation.paths`  — the paths that it denotes.
* `Pattern.Derivation.scan_chars` — the tokens that are read from its text.
-/

namespace LayeredConfig

-- ---------------------------------------------------------------------------
-- Tokens
-- ---------------------------------------------------------------------------

namespace PatternToken

/-- The characters that words are made of. -/
def InWords (c : Char) : Prop :=
  ('A' ≤ c ∧ c ≤ 'Z') ∨ ('a' ≤ c ∧ c ≤ 'z') ∨ ('0' ≤ c ∧ c ≤ '9') ∨ c = '_' ∨ c = '-'

instance (c : Char) : Decidable (InWords c) :=
  inferInstanceAs (Decidable (_ ∨ _))

theorem isWordChar_iff (c : Char) : isWordChar c = true ↔ InWords c := by
  have hBetween : ∀ low high : Char,
      (decide (c.val ≥ low.val) && decide (c.val ≤ high.val)) = true ↔ low ≤ c ∧ c ≤ high :=
    fun low high =>
      Bool.and_eq_true_iff.trans (and_congr decide_eq_true_iff decide_eq_true_iff)
  have hUpper : c.isUpper = true ↔ 'A' ≤ c ∧ c ≤ 'Z' := decide_eq_true_iff
  have hLower : c.isLower = true ↔ 'a' ≤ c ∧ c ≤ 'z' := hBetween 'a' 'z'
  have hDigit : c.isDigit = true ↔ '0' ≤ c ∧ c ≤ '9' := hBetween '0' '9'
  show (((c.isUpper || c.isLower) || c.isDigit) || c == '_' || c == '-') = true ↔ _
  simp only [Bool.or_eq_true, hUpper, hLower, hDigit, beq_iff_eq, or_assoc, InWords]

/-- The characters of a token. -/
def written : PatternToken → List Char
  | word chars => chars
  | dot => ['.']
  | opening => ['(']
  | closing => [')']
  | bar => ['|']

theorem written_of_ofMark? {c : Char} {token : PatternToken} (h : ofMark? c = some token) :
    token.written = [c] := by
  rw [ofMark?.eq_def] at h
  split at h <;> cases h <;> rfl

/-- What is read from a character and the text behind it. -/
theorem scan_cons_eq_ok {c : Char} {rest : List Char} {tokens : List PatternToken}
    (h : scan (c :: rest) = .ok tokens) : ∃ more, scan rest = .ok more ∧
      ((isWordChar c = true ∧ tokens = consWordChar c more) ∨
        ∃ token, ofMark? c = some token ∧ tokens = token :: more) := by
  rw [scan] at h
  cases hRest : scan rest with
  | error e =>
    rw [hRest] at h
    split at h
    · cases h
    · split at h <;> cases h
  | ok more =>
    rw [hRest] at h
    refine ⟨more, rfl, ?_⟩
    split at h
    · rename_i hWord
      cases h
      exact .inl ⟨hWord, rfl⟩
    · split at h
      · rename_i token hMark
        cases h
        exact .inr ⟨token, hMark, rfl⟩
      · cases h

theorem written_consWordChar (c : Char) (tokens : List PatternToken) :
    (consWordChar c tokens).flatMap written = c :: tokens.flatMap written := by
  rw [consWordChar.eq_def]
  split <;> rfl

/-- A text is what its tokens write. -/
theorem eq_written_of_scan {chars : List Char} {tokens : List PatternToken}
    (h : scan chars = .ok tokens) : chars = tokens.flatMap written := by
  induction chars generalizing tokens with
  | nil =>
    cases h
    rfl
  | cons c rest ih =>
    obtain ⟨more, hMore, ⟨-, rfl⟩ | ⟨token, hMark, rfl⟩⟩ := scan_cons_eq_ok h
    · rw [written_consWordChar, ← ih hMore]
    · rw [List.flatMap_cons, written_of_ofMark? hMark, ← ih hMore, List.singleton_append]

theorem isWord_consWordChar {c : Char} (hc : isWordChar c = true) {tokens : List PatternToken}
    (h : ∀ cs, word cs ∈ tokens → IsWord cs) :
    ∀ cs, word cs ∈ consWordChar c tokens → IsWord cs := by
  have hSingle : IsWord [c] := ⟨List.cons_ne_nil c [], fun a ha => List.mem_singleton.1 ha ▸ hc⟩
  intro cs hcs
  rw [consWordChar.eq_def] at hcs
  split at hcs
  · rename_i front rest
    rcases List.mem_cons.1 hcs with hEq | hcs
    · -- the word in front has got one more character
      cases hEq
      have hFront := h front List.mem_cons_self
      exact ⟨List.cons_ne_nil c front, List.forall_mem_cons.2 ⟨hc, hFront.2⟩⟩
    · exact h cs (List.mem_cons_of_mem _ hcs)
  · rcases List.mem_cons.1 hcs with hEq | hcs
    · cases hEq
      exact hSingle
    · exact h cs hcs

theorem isWord_of_scan {chars : List Char} {tokens : List PatternToken}
    (h : scan chars = .ok tokens) : ∀ cs, word cs ∈ tokens → IsWord cs := by
  induction chars generalizing tokens with
  | nil =>
    cases h
    exact fun _ hcs => absurd hcs List.not_mem_nil
  | cons c rest ih =>
    obtain ⟨more, hMore, ⟨hWord, rfl⟩ | ⟨token, hMark, rfl⟩⟩ := scan_cons_eq_ok h
    · exact isWord_consWordChar hWord (ih hMore)
    · intro cs hcs
      rcases List.mem_cons.1 hcs with rfl | hcs
      · rw [ofMark?.eq_def] at hMark
        split at hMark <;> cases hMark
      · exact ih hMore cs hcs

end PatternToken

-- ---------------------------------------------------------------------------
-- Derivations
-- ---------------------------------------------------------------------------

namespace Pattern

open PatternToken

/-- What the rules of the grammar define. -/
inductive Symbol where
  | expression
  | term
  | branches
  | branch

/-- Derivations, each by the rule that it begins with. -/
inductive Derivation : Symbol → Type where
  /-- `expression := term` -/
  | single (term : Derivation .term) : Derivation .expression
  /-- `expression := expression '.' term` -/
  | dotted (front : Derivation .expression) (term : Derivation .term) : Derivation .expression
  /-- `term := word` -/
  | word (chars : List Char) (nonempty : chars ≠ []) (letters : ∀ c ∈ chars, InWords c) :
      Derivation .term
  /-- `term := '(' branches ')'` -/
  | group (branches : Derivation .branches) : Derivation .term
  /-- `branches := branch` -/
  | only (branch : Derivation .branch) : Derivation .branches
  /-- `branches := branches '|' branch` -/
  | barred (front : Derivation .branches) (branch : Derivation .branch) : Derivation .branches
  /-- `branch := expression` -/
  | filled (expression : Derivation .expression) : Derivation .branch
  /-- `branch := nothing` -/
  | empty : Derivation .branch

/-- All combinations of two lists of paths, the first varying slowest. -/
def combine (fronts backs : List KeyPath) : List KeyPath :=
  fronts.flatMap fun front => backs.map fun back => front ++ back

namespace Derivation

/-- The text that a derivation writes. -/
def chars : Derivation s → List Char
  | single term => term.chars
  | dotted front term => front.chars ++ '.' :: term.chars
  | word cs _ _ => cs
  | group branches => '(' :: branches.chars ++ [')']
  | only branch => branch.chars
  | barred front branch => front.chars ++ '|' :: branch.chars
  | filled expression => expression.chars
  | empty => []

/-- The paths that a derivation denotes. -/
def paths : Derivation s → List KeyPath
  | single term => term.paths
  | dotted front term => combine front.paths term.paths
  | word cs _ _ => [[String.ofList cs]]
  | group branches => branches.paths
  | only branch => branch.paths
  | barred front branch => front.paths ++ branch.paths
  | filled expression => expression.paths
  | empty => [[]]

/-- The tokens that a derivation uses. -/
def tokens : Derivation s → List PatternToken
  | single term => term.tokens
  | dotted front term => front.tokens ++ dot :: term.tokens
  | word cs _ _ => [.word cs]
  | group branches => opening :: branches.tokens ++ [closing]
  | only branch => branch.tokens
  | barred front branch => front.tokens ++ bar :: branch.tokens
  | filled expression => expression.tokens
  | empty => []

theorem chars_eq_written (d : Derivation s) : d.chars = d.tokens.flatMap written := by
  induction d with
  | single term ih => exact ih
  | dotted front term ihFront ihTerm =>
    rw [chars, tokens, ihFront, ihTerm, List.flatMap_append]
    rfl
  | word cs nonempty letters => exact (List.append_nil cs).symm
  | group branches ih =>
    rw [chars, tokens, ih, List.flatMap_append]
    rfl
  | only branch ih => exact ih
  | barred front branch ihFront ihBranch =>
    rw [chars, tokens, ihFront, ihBranch, List.flatMap_append]
    rfl
  | filled expression ih => exact ih
  | empty => rfl

/-- The tokens that are read from the text of a derivation, unless the characters behind
it go on with its last word. -/
theorem scan_chars (d : Derivation s) {rest : List Char} {more : List PatternToken}
    (hRest : scan rest = .ok more) (hApart : ∀ cs others, more ≠ .word cs :: others) :
    scan (d.chars ++ rest) = .ok (d.tokens ++ more) := by
  have hMark : ∀ {token : PatternToken} {others : List PatternToken},
      (∀ cs, token ≠ .word cs) → ∀ cs behind, token :: others ≠ .word cs :: behind :=
    fun hToken cs behind hEq => hToken cs (List.cons.inj hEq).1
  induction d generalizing rest more with
  | single term ih => exact ih hRest hApart
  | dotted front term ihFront ihTerm =>
    have hDot := scan_mark (c := '.') rfl (ihTerm hRest hApart)
    have hFront := ihFront hDot (hMark nofun)
    rwa [chars, tokens, List.append_assoc, List.append_assoc]
  | word cs nonempty letters =>
    exact scan_word ⟨nonempty, fun c hc => (isWordChar_iff c).2 (letters c hc)⟩ hRest hApart
  | group branches ih =>
    have hInside := ih (scan_mark (c := ')') rfl hRest) (hMark nofun)
    have hOpening := scan_mark (c := '(') rfl hInside
    rwa [chars, tokens, List.append_assoc, List.append_assoc]
  | only branch ih => exact ih hRest hApart
  | barred front branch ihFront ihBranch =>
    have hBar := scan_mark (c := '|') rfl (ihBranch hRest hApart)
    have hFront := ihFront hBar (hMark nofun)
    rwa [chars, tokens, List.append_assoc, List.append_assoc]
  | filled expression ih => exact ih hRest hApart
  | empty => exact hRest

end Derivation

end Pattern

end LayeredConfig
